import Refactory.Kind
import Refactory.Span

/-!
# Trees

A tree is a store of nodes that refer to one another. Nodes are numbered in the order in which
they were made and never renumbered, so a node that an edit leaves alone keeps its number, and what
is known of it stays true. Lists of children are runs of entries in a store of their own. Each node
has a link to its parent, and the tree has a root; nodes that are not reached from the root stay in
the store and do no harm.

A reference is the number of a node or `none`, which fills the place of a child that is absent. A
reference past the store reads as a null literal without a place in the source.

Each state of a tree has a version, taken from a clock that goes on with every edit. Two trees of
one version are the same tree.
-/
namespace Refactory

/-- The number of a node, or `none` for no node. -/
abbrev Ref := Option Nat

/-- A run of entries in the list store of a tree. -/
structure Range where
  /-- The first entry. -/
  start : Nat
  /-- The number of entries. -/
  length : Nat
deriving DecidableEq, Inhabited

namespace Range

/-- The run of no entries. -/
def empty : Range := ⟨0, 0⟩

/-- A run is empty when it has no entries. -/
def isEmpty (range : Range) : Bool := range.length == 0

/-- The entries of the run, in order. -/
def entries (range : Range) : List Nat := List.range' range.start range.length

end Range

/-- A kind whose children are references into a tree. -/
abbrev NodeKind := Kind Ref Range

/-- A child position of such a kind. -/
abbrev NodeSlot := Slot Ref Range

/-- A node: what it is and where it came from. -/
structure Node where
  /-- The kind of the node, with references to its children. -/
  kind : NodeKind
  /-- The place of the node in the source. -/
  span : Span
deriving DecidableEq, Inhabited

/-- What a reference to no node reads as. -/
def Node.missing : Node := ⟨.null, .nowhere⟩

/-- A store of nodes with a root. -/
structure Tree where
  /-- The nodes, each at its number. -/
  nodes : Array Node
  /-- The parent of each node. -/
  parents : Array Ref
  /-- The entries of the child lists. -/
  lists : Array Ref
  /-- The node that the tree starts from. -/
  root : Ref
  /-- The version of this state of the tree. -/
  version : Nat
  /-- The version that the next edit gives. -/
  clock : Nat
deriving DecidableEq, Inhabited

namespace Tree

/-- The tree without nodes, which takes the version that the clock shows. -/
def empty (clock : Nat) : Tree := ⟨#[], #[], #[], none, clock, clock + 1⟩

/-- The number of nodes, attached or not. -/
def size (tree : Tree) : Nat := tree.nodes.size

/-- A tree is empty when it has no nodes. -/
def isEmpty (tree : Tree) : Bool := tree.nodes.isEmpty

/-- The node of a reference. -/
def node (tree : Tree) (ref : Ref) : Node :=
  match ref with
  | none => .missing
  | some number => tree.nodes[number]?.getD .missing

/-- The kind of the node of a reference. -/
def kind (tree : Tree) (ref : Ref) : NodeKind := (tree.node ref).kind

/-- The span of the node of a reference. -/
def span (tree : Tree) (ref : Ref) : Span := (tree.node ref).span

/-- The parent of a node, or `none` for a node without one. -/
def parent (tree : Tree) (ref : Ref) : Ref :=
  match ref with
  | none => none
  | some number => tree.parents[number]?.getD none

/-- The entries of a list; those past the store are passed over. -/
def items (tree : Tree) (range : Range) : List Ref :=
  (tree.lists.extract range.start (range.start + range.length)).toList

/-- The children of a child position: one if it is present, or all entries of the list. -/
def slotChildren (tree : Tree) : NodeSlot → List Ref
  | .one none => []
  | .one child => [child]
  | .many range => tree.items range

/-- The children of a kind in source order. -/
def kindChildren (tree : Tree) (kind : NodeKind) : List Ref :=
  kind.slots.flatMap tree.slotChildren

/-- The children of a node in source order. -/
def children (tree : Tree) (ref : Ref) : List Ref := tree.kindChildren (tree.kind ref)

/-- Two trees have the same version when neither was edited since one was copied from the other. -/
def sameVersion (tree other : Tree) : Bool := tree.version == other.version

/-- A number of steps that no path from a node to its descendants exceeds. -/
def depthBound (tree : Tree) : Nat := tree.size + 1

end Tree

end Refactory
