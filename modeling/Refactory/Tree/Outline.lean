import Refactory.Tree
import Refactory.Term

/-!
# Outlines

The outline of a node is the term that it and everything below it stand for, with a note of where
in the tree each part is. Analyses that read a tree without changing it read its outline.
-/
namespace Refactory

/-- Where a part of an outline is. -/
structure Place where
  /-- The node in the tree. -/
  ref : Ref
  /-- The span of the node. -/
  span : Span
deriving DecidableEq, Inhabited

/-- The term that a node of a tree stands for. -/
abbrev Outline := Term Place

namespace Tree

/-- A name without characters, which takes no room where it is written. -/
def blank : Outline := .node ⟨none, .nowhere⟩ (.ident "")

/-- The form of a node whose list announces more entries than are stored. A type reference and a
loop header still show that they have a list, and a lambda is in parentheses unless it announces
one parameter. -/
def announced (kind : NodeKind) (form : Term.Form Place) : Term.Form Place :=
  match kind, form with
  | .typeRef _ range _, .typeRef name [] rank =>
    if range.isEmpty then form else .typeRef name [blank] rank
  | .forLoop _ _ _ range _, .forLoop declaration initializers condition [] body =>
    if range.isEmpty then form else .forLoop declaration initializers condition [blank] body
  | .lambda range _ _, .lambda params body parenthesized =>
    if params.length = range.length then form
    else if range.length = 1 then .lambda [blank] body parenthesized
    else .lambda params body true
  | _, _ => form

/-- The outline of a node, down to a depth. -/
def outlineWithin (tree : Tree) : Nat → Ref → Outline
  | 0, ref => .node ⟨ref, tree.span ref⟩ .null
  | bound + 1, ref =>
    let node := tree.node ref
    let slots := node.kind.slots.map fun
      | .one none => .one none
      | .one child => .one (some (outlineWithin tree bound child))
      | .many range => .many ((tree.items range).map (outlineWithin tree bound))
    .node ⟨ref, node.span⟩ (announced node.kind (node.kind.withSlots none [] slots))

/-- The outline of a node. -/
def outline (tree : Tree) (ref : Ref) : Outline := tree.outlineWithin tree.depthBound ref

end Tree

end Refactory
