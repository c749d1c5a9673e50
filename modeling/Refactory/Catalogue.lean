import Refactory.Model.Resolve
import Refactory.Refactoring.Loop
import Refactory.Refactoring.Merge
import Refactory.Refactoring.Quantifier
import Refactory.Refactoring.Split
import Refactory.Refactoring.Temporary

/-!
# The catalogue of refactorings

Every refactoring with the attempt that looks for it, alone at a node and all together for a span.
-/
namespace Refactory

namespace Context

/-- The context of a program whose names are not resolved yet. -/
def ofTree (tree : Tree) (settings : Settings) : Context := ⟨tree, Model.build tree, settings⟩

/-- Looks for a refactoring at a node. -/
def attempt (context : Context) (refactoring : Refactoring) (ref : Ref) :
    Attempt (Option Action) :=
  match refactoring with
  | .mergeWhere => context.merge .filters ref
  | .splitWhere => context.splitFilter ref
  | .mergeSelect => context.merge .projections ref
  | .splitSelect => context.splitProjection ref
  | .invertQuantifier => context.invertQuantifier ref
  | .forToForEach => context.forToForEach ref
  | .forEachToFor => context.forEachToFor ref
  | .chainCalls => context.chainCalls ref
  | .unchainCalls => context.unchainCalls ref

/-- What an attempt comes to, without its log. -/
def outcome {α : Type} (attempt : Attempt α) : Except RefactoringError α := (attempt.run #[]).1

/-- Looks for a refactoring at a node, without a log. -/
def offered? (context : Context) (refactoring : Refactoring) (ref : Ref) :
    Except RefactoringError (Option Action) :=
  outcome (context.attempt refactoring ref)

/-- Looks for every refactoring at a node. -/
def actionsAtNode (context : Context) (ref : Ref) : Except RefactoringError (List Action) := do
  return (← Refactoring.all.mapM (context.offered? · ref)).reduceOption

/-- Looks for every refactoring at the smallest node that covers a span. -/
def actionsAt (context : Context) (span : Span) : Except RefactoringError (List Action) :=
  match context.tree.covering? span with
  | none => return []
  | some number => context.actionsAtNode (some number)

end Context

end Refactory
