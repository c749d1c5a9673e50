import Refactory.Tree

/-!
# Walks through a tree

Upward, a walk follows parent links: `Tree.ancestors` lists them, nearest first. Downward, it
follows children: `Tree.descendants` lists a node and everything below it, each node before its
children and these in source order, with a stack of the nodes still to come. `Tree.covering?` goes
down to the deepest node whose span covers a given one.

Every walk takes at most `Tree.depthBound` steps up or down, which is enough where no node is above
itself.
-/
namespace Refactory

namespace Tree

/-- The parents met on the way up from a node, nearest first. -/
def ancestorsWithin (tree : Tree) : Nat → Ref → List Ref
  | 0, _ => []
  | bound + 1, ref =>
    match tree.parent ref with
    | none => []
    | some parent => some parent :: ancestorsWithin tree bound (some parent)

/-- The ancestors of a node, nearest first, without the node itself. -/
def ancestors (tree : Tree) (ref : Ref) : List Ref := tree.ancestorsWithin tree.depthBound ref

/-- A node and its ancestors, nearest first. -/
def lineage (tree : Tree) (ref : Ref) : List Ref := ref :: tree.ancestors ref

/-- The number of entries that a walk down from a node takes off its stack. -/
def entriesBelow (tree : Tree) : Nat → Ref → Nat
  | 0, _ => 1
  | bound + 1, ref =>
    1 + (tree.children ref).foldr (fun child count => entriesBelow tree bound child + count) 0

/-- The number of entries that a walk takes off a stack. -/
def entries (tree : Tree) : List (Nat × Ref) → Nat
  | [] => 0
  | (bound, ref) :: stack => tree.entriesBelow bound ref + entries tree stack

/-- A walk takes off what is on top, and then what is below that. -/
theorem entries_append (tree : Tree) (front back : List (Nat × Ref)) :
    tree.entries (front ++ back) = tree.entries front + tree.entries back := by
  induction front with
  | nil => exact (Nat.zero_add _).symm
  | cons entry front ih => rw [List.cons_append, entries, entries, ih, Nat.add_assoc]

/-- What a walk takes off some nodes of one bound. -/
theorem entries_map (tree : Tree) (bound : Nat) (refs : List Ref) :
    tree.entries (refs.map (bound, ·)) =
    refs.foldr (fun ref count => tree.entriesBelow bound ref + count) 0 := by
  induction refs with
  | nil => rfl
  | cons ref refs ih => rw [List.map_cons, List.foldr_cons, entries, ih]

/-- Lists the nodes of a stack from the top, each followed by what is below it: a node that is taken
off leaves its children in its place. An entry is a node with the number of nodes that a path may
have from it on. -/
def stackWalk (tree : Tree) (stack : List (Nat × Ref)) : List Ref :=
  match stack with
  | [] => []
  | (0, _) :: stack => stackWalk tree stack
  | (bound + 1, ref) :: stack => ref :: stackWalk tree ((tree.children ref).map (bound, ·) ++ stack)
termination_by tree.entries stack
decreasing_by
  · rw [entries, entriesBelow]
    omega
  · rw [entries, entriesBelow, entries_append, entries_map]
    omega

/-- A node and everything below it in pre-order; nothing for no node. -/
def descendants (tree : Tree) (ref : Ref) : List Ref :=
  match ref with
  | none => []
  | some number => tree.stackWalk [(tree.depthBound, some number)]

/-- The nodes of the tree in pre-order. -/
def attached (tree : Tree) : List Ref := tree.descendants tree.root

/-- A node is within another when it is the other or below it. -/
def isWithin (tree : Tree) (ref ancestor : Ref) : Bool :=
  ref == ancestor || (tree.ancestors ref).any (· == ancestor)

/-- The deepest node on the way down from a node whose span covers the given one. -/
def coveringBelow (tree : Tree) (span : Span) : Nat → Ref → Ref
  | 0, ref => ref
  | bound + 1, ref =>
    let covers child := !(tree.span child).isNowhere && (tree.span child).covers span
    match (tree.children ref).find? covers with
    | some child => coveringBelow tree span bound child
    | none => ref

/-- The deepest attached node whose span covers the given one, if the root covers it. -/
def covering? (tree : Tree) (span : Span) : Option Nat :=
  match tree.root with
  | none => none
  | some root =>
    if (tree.span (some root)).covers span then
      tree.coveringBelow span tree.depthBound (some root)
    else
      none

/-- An entry of a listing: a node with its depth and its position among the slots of its parent. -/
structure Entry where
  /-- The number of nodes above. -/
  depth : Nat
  /-- The position of the slot that holds the node. -/
  slot : Nat
  /-- The node. -/
  ref : Ref

/-- The entries of a node and everything below it in pre-order. -/
def listingBelow (tree : Tree) : Nat → (depth slot : Nat) → Ref → List Entry
  | 0, _, _, _ => []
  | bound + 1, depth, slot, ref =>
    ⟨depth, slot, ref⟩ :: (tree.kind ref).slots.zipIdx.flatMap fun (content, position) =>
      (tree.slotChildren content).flatMap (listingBelow tree bound (depth + 1) position)

/-- The entries of the tree in pre-order. -/
def listing (tree : Tree) : List Entry :=
  match tree.root with
  | none => []
  | root => tree.listingBelow tree.depthBound 0 0 root

end Tree

end Refactory
