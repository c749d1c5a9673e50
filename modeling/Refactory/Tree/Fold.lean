import Refactory.Tree.Edit

/-!
# Rebuilding a tree from below

A fold visits a node and everything below it, children first and from left to right, and makes a
new node where some child came out different. What is unchanged keeps its reference, so a fold that
changes nothing gives the node it was given. A rule says of each node, before its children are
visited, whether it is rebuilt from them or another node stands for it.
-/
namespace Refactory

namespace Tree

/-- What a rule says of a node. -/
inductive Verdict where
  /-- The node is rebuilt from its children. -/
  | rebuild
  /-- Another node stands for it as it is. -/
  | become (replacement : Ref)
  /-- The fold of another node stands for it. -/
  | follow (other : Ref)

/-- A rule of a fold, given the number of nodes that were replaced before. -/
abbrev Rule := Nat → Ref → Edit Verdict

/-- Edits that count the nodes they replace. -/
abbrev Counted (α : Type) := StateT Nat (StateM Tree) α

/-- Visits the children of a child position; a list is only added where it changed. -/
def visitSlot (visit : Ref → Counted Ref) (slot : NodeSlot) : Counted NodeSlot := do
  match slot with
  | .one none => return .one none
  | .one child => return .one (← visit child)
  | .many range =>
    let items := (← getThe Tree).items range
    let visited ← items.mapM visit
    if visited = items then return .many range else return .many (← allocList visited)

/-- Rebuilds a node from its visited children if one of them changed. -/
def rebuild (visit : Ref → Counted Ref) (ref : Ref) : Counted Ref := do
  let node := (← getThe Tree).node ref
  let slots ← node.kind.slots.mapM (visitSlot visit)
  if slots = node.kind.slots then
    return ref
  else
    alloc (node.kind.withSlots none .empty slots) node.span

/-- Folds a node and everything below it, down to a depth. -/
def foldWithin (rule : Rule) : Nat → Ref → Counted Ref
  | 0, ref => return ref
  | bound + 1, ref => do
    match ← rule (← getThe Nat) ref with
    | .rebuild => rebuild (foldWithin rule bound) ref
    | .become replacement =>
      modifyThe Nat (· + 1)
      return replacement
    | .follow other => foldWithin rule bound other

/-- Folds a node and everything below it, and counts the nodes that the rule replaced. -/
def fold (rule : Rule) (ref : Ref) : Edit (Ref × Nat) := do
  (foldWithin rule (← get).depthBound ref).run 0

namespace Rule

/-- The rule that changes nothing. -/
def keep : Rule := fun _ _ => return .rebuild

/-- The rule that puts zero in the place of every other integer. -/
def zeroIntegers : Rule := fun _ ref => do
  let tree ← get
  match tree.kind ref with
  | .int value =>
    if value = 0 then return .rebuild else return .become (← alloc (.int 0) (tree.span ref))
  | _ => return .rebuild

/-- The rule that renames the identifiers of one name. -/
def renameIdentifiers (old new : String) : Rule := fun _ ref => do
  let tree ← get
  match tree.kind ref with
  | .ident name =>
    if name = old then return .become (← alloc (.ident new) (tree.span ref)) else return .rebuild
  | _ => return .rebuild

/-- The rule that drops parentheses. -/
def dropParens : Rule := fun _ ref => do
  match (← get).kind ref with
  | .paren inner => return .follow inner
  | _ => return .rebuild

end Rule

end Tree

end Refactory
