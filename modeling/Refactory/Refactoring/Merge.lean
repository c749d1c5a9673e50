import Refactory.Attempt
import Refactory.Code.CallRun
import Refactory.Code.Composition

/-!
# Merging runs of calls

Calls of one combinator, each on the result of the one before, become a single call: filters
`xs.Where(a).Where(b)` become a filter with the conjunction of the predicates, and projections
`xs.Select(f).Select(g)` become a projection with the composition of the functions. What differs
between the two is told by a `Merging`.
-/
namespace Refactory

/-- How the calls of a combinator are merged. -/
structure Merging where
  /-- The refactoring that does it. -/
  refactoring : Refactoring
  /-- The name of the combinator. -/
  method : String
  /-- Which functions can be merged. -/
  accepts : Model → CallRun.Acceptance
  /-- The body of the merged function over a parameter of one name. -/
  combine : Model → String → Abstraction → List Abstraction → Edit Ref
  /-- Why there may be nothing to merge. -/
  refusal : Refusal

namespace Merging

/-- Filters are merged by conjunction, whatever their predicates are. -/
def filters : Merging where
  refactoring := .mergeWhere
  method := "Where"
  accepts _ _ _ _ := true
  combine := Abstraction.conjoin
  refusal := .noWhereRun

/-- Projections are merged by composition, if their functions can take part in one. -/
def projections : Merging where
  refactoring := .mergeSelect
  method := "Select"
  accepts model tree function place := function.isComposable tree model place
  combine := Abstraction.compose
  refusal := .noSelectRun

end Merging

/-- Puts a single call with the combined function in the place of the run. -/
def CallRun.merge (run : CallRun) (merging : Merging) (model : Model) (name : String) :
    Change Unit := do
  let parent := (← get).parent run.outer
  let body ← merging.combine model name run.first run.others
  let param ← Build.param name
  let lambda ← Build.lambda param body false
  let merged ← Build.invoke run.anchor [lambda]
  Change.put parent run.outer merged

namespace Context

/-- The name of the parameter of a merged function. The first function that is written as a lambda
keeps the name of its parameter where no function of the run has another use for that name; else a
name is taken that occurs nowhere in the run. -/
def mergedParameter (context : Context) (scratch : Tree) (run : CallRun) : Attempt String := do
  let isKept (name : String) : Bool :=
    run.functions.all fun function => !function.captures scratch context.model name
  let written := run.functions.find? fun function => !function.referent.isSynthesized
  match (written.map (·.param)).filter isKept with
  | some name => return name
  | none =>
    let (name, _) ←
      Attempt.pickName (context.namesAt run.outer) [] context.settings.lambdaParameter
    return name

/-- Merges the first run of calls in the statement of a node that can be merged. -/
def merge (context : Context) (merging : Merging) (ref : Ref) : Attempt (Option Action) := do
  let container := context.tree.statementOf ref
  let (search, scratch) :=
    (CallRun.search context.model context.settings.placeholder merging.method container
      (merging.accepts context.model)).run context.tree
  Attempt.noteAll (search.rejected.map .runRejected)
  match search.found with
  | none => Attempt.refuse merging.refusal
  | some run =>
    let name ← context.mergedParameter scratch run
    let title :=
      "Merge " ++ toString run.functions.length ++ " " ++ merging.method ++ " calls"
    context.offer merging.refactoring title scratch (run.merge merging context.model name)

end Context

end Refactory
