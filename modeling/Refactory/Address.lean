import Refactory.Tree.Walk

/-!
# Addresses

Ways to point at a node of a program: by its place in pre-order, by its place among the nodes of one
label, by a span, or by an occurrence of a text in the source. The last two mean the smallest node
that covers the span or the occurrence.
-/
namespace Refactory

/-- A way to point at a node. -/
inductive Address where
  /-- The node at a place in pre-order. -/
  | place (index : Nat)
  /-- The node at a place among the nodes with a label, in pre-order. -/
  | labelled (label : String) (index : Nat)
  /-- The smallest node that covers a span. -/
  | covering (span : Span)
  /-- The smallest node that covers an occurrence of a text in the source. -/
  | occurrence (text : String) (index : Nat)
deriving DecidableEq, Inhabited

namespace Address

/-- The number of bytes that characters take. -/
def width (characters : List Char) : Nat :=
  characters.foldl (fun total character => total + character.utf8Size) 0

/-- The offsets at which a text occurs in the rest of a source that starts at an offset, after
`skip` characters that belong to an earlier occurrence. Occurrences do not overlap, and the empty
text occurs before every character and at the end. -/
def occurrencesFrom (text : List Char) : (skip offset : Nat) → List Char → List Nat
  | _, offset, [] => if text.isEmpty then [offset] else []
  | skip + 1, offset, character :: rest =>
    occurrencesFrom text skip (offset + character.utf8Size) rest
  | 0, offset, character :: rest =>
    let next := offset + character.utf8Size
    if text.isPrefixOf (character :: rest) then
      offset :: occurrencesFrom text (text.length - 1) next rest
    else
      occurrencesFrom text 0 next rest

/-- The spans of the occurrences of a text in a source. -/
def occurrences (text source : String) : List Span :=
  (occurrencesFrom text.toList 0 0 source.toList).map fun offset =>
    ⟨offset, offset + width text.toList⟩

end Address

/-- The node that an address means, in a tree whose spans are places in a source. -/
def Tree.locate? (tree : Tree) (source : String) : Address → Option Nat
  | .place index => tree.attached[index]?.join
  | .labelled label index =>
    (tree.attached.filter fun ref => (tree.kind ref).label == label)[index]?.join
  | .covering span => tree.covering? span
  | .occurrence text index => (Address.occurrences text source)[index]?.bind tree.covering?

end Refactory
