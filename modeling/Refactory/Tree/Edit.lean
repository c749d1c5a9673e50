import Refactory.Tree

/-!
# Edits of a tree

An edit adds nodes and lists to the stores, or puts nodes into the places of others. Adding a node,
or giving a node another kind, makes it the parent of its children. Only the node above the place
of an edit is changed; nodes that lose their place stay in the store. Every edit but the addition
of a list takes a new version.

`Tree.replaceChild` puts one node in the place of another, `Tree.spliceChild` any number of nodes in
the place of a list element. Both tell whether they found the place; where they did not, the tree
is unchanged. `Tree.duplicate` copies a node with everything below it, so that the same code can
stand in two places.
-/
namespace Refactory

/-- A change of a tree that gives a result. -/
abbrev Edit (α : Type) := StateM Tree α

namespace Tree

/-- The tree with the version that the clock shows, and the clock one further. -/
def touch (tree : Tree) : Tree := { tree with version := tree.clock, clock := tree.clock + 1 }

/-- The tree with another parent for a node. -/
def setParent (tree : Tree) (ref parent : Ref) : Tree :=
  match ref with
  | none => tree
  | some number => { tree with parents := tree.parents.setIfInBounds number parent }

/-- The tree in which a node is the parent of the children of its kind. -/
def adopt (tree : Tree) (parent : Ref) (kind : NodeKind) : Tree :=
  (tree.kindChildren kind).foldl (fun tree child => tree.setParent child parent) tree

/-- Adds a node and makes it the parent of its children. -/
def alloc (kind : NodeKind) (span : Span) : Edit Ref := fun tree =>
  let ref := some tree.size
  let nodes := tree.nodes.push ⟨kind, span⟩
  let grown := { tree with nodes, parents := tree.parents.push none }
  (ref, (grown.adopt ref kind).touch)

/-- Adds a list. -/
def allocList (refs : List Ref) : Edit Range := fun tree =>
  (⟨tree.lists.size, refs.length⟩, { tree with lists := tree.lists ++ refs.toArray })

/-- Gives a node another kind and makes it the parent of the children of that kind. -/
def setKind (ref : Ref) (kind : NodeKind) : Edit Unit := fun tree =>
  match ref with
  | none => ((), tree)
  | some number =>
    if h : number < tree.nodes.size then
      let changed := { tree with nodes := tree.nodes.set number ⟨kind, tree.nodes[number].span⟩ }
      ((), (changed.adopt ref kind).touch)
    else
      ((), tree)

/-- Makes a node the root, without a parent. -/
def setRoot (root : Ref) : Edit Unit := fun tree =>
  ((), (({ tree with root }).setParent root none).touch)

/-- A list with other nodes in the place of a node. -/
def substitute (target : Ref) (replacements items : List Ref) : List Ref :=
  items.flatMap fun item => if item = target then replacements else [item]

/-- A child position with other nodes in the place of a node, or `none` if the node is not there.
A single position takes one node, and none where only lists are to be changed. -/
def substituteSlot (target : Ref) (replacements : List Ref) (listsOnly : Bool) (slot : NodeSlot) :
    Edit (Option NodeSlot) := fun tree =>
  match slot with
  | .one child =>
    match replacements with
    | [replacement] =>
      (if child = target && !listsOnly then some (.one replacement) else none, tree)
    | _ => (none, tree)
  | .many range =>
    let items := tree.items range
    if items.contains target then
      let (range, tree) := allocList (substitute target replacements items) tree
      (some (.many range), tree)
    else
      (none, tree)

/-- Puts other nodes in the place of a child of `parent`, and tells whether the child was there. -/
def editChild (parent target : Ref) (replacements : List Ref) (listsOnly : Bool) :
    Edit Bool := do
  let kind := (← get).kind parent
  let results ← kind.slots.mapM fun slot => do
    return (slot, ← substituteSlot target replacements listsOnly slot)
  if results.all (·.2.isNone) then
    return false
  setKind parent (kind.withSlots none .empty (results.map fun (slot, result) => result.getD slot))
  unless replacements.contains target || (← get).parent target != parent do
    modify (·.setParent target none)
  return true

/-- Puts a node in the place of a child of `parent`, and tells whether the child was there. -/
def replaceChild (parent target replacement : Ref) : Edit Bool :=
  editChild parent target [replacement] false

/-- Puts nodes in the place of an element of a child list of `parent`, and tells whether the element
was there. -/
def spliceChild (parent target : Ref) (replacements : List Ref) : Edit Bool :=
  editChild parent target replacements true

/-- Puts a node in the place of another, and tells whether the other had a place. A replacement that
wraps the node already is its parent, so there the parent must be looked up first and
`replaceChild` be used. -/
def replace (target replacement : Ref) : Edit Bool := do
  let tree ← get
  if target = tree.root then
    setRoot replacement
    return true
  match tree.parent target with
  | none => return false
  | some parent => replaceChild (some parent) target replacement

/-- Copies the children of a child position with `copy`. -/
def duplicateSlot (copy : Ref → Edit Ref) (slot : NodeSlot) : Edit NodeSlot := do
  match slot with
  | .one none => return .one none
  | .one child => return .one (← copy child)
  | .many range =>
    let items := (← get).items range
    return .many (← allocList (← items.mapM copy))

/-- Copies a node and everything below it, down to a depth. -/
def duplicateWithin : Nat → Ref → Edit Ref
  | 0, ref => return ref
  | bound + 1, ref => do
    let node := (← get).node ref
    let slots ← node.kind.slots.mapM (duplicateSlot (duplicateWithin bound))
    alloc (node.kind.withSlots none .empty slots) node.span

/-- Copies a node and everything below it; the copy has no place in the tree. -/
def duplicate (ref : Ref) : Edit Ref := do
  duplicateWithin (← get).depthBound ref

end Tree

end Refactory
