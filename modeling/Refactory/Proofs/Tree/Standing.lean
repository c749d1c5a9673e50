import Mathlib.Data.List.Nodup
import Mathlib.Data.List.Pairwise
import Refactory.Tree.Outline
import Refactory.Proofs.Term.Slots
import Refactory.Proofs.Term.Subterms

/-!
# Terms that stand in a tree

A tree holds a term when the nodes of the term are stored where its notes say. A term stands in a
tree when, besides, every link to a parent below it is the one that the term has, and no node is in
two places of it (`Tree.Stands`). This is what is left alone, moved and put together by edits: a
tree is a program exactly when a term stands at its root.
-/
namespace Refactory

variable {outline part : Outline}

namespace Term

/-- Where the root of an outline is. -/
def ref (outline : Outline) : Ref := outline.note.ref

/-- Where the parts of an outline are, in pre-order. -/
def refs (outline : Outline) : List Ref := outline.subterms.map ref

@[simp] theorem ref_node (place : Place) (form : Form Place) :
    ref (.node place form) = place.ref := rfl

/-- The places below the root of an outline. -/
def innerRefs (outline : Outline) : List Ref := outline.children.flatMap refs

theorem refs_eq (outline : Outline) : refs outline = ref outline :: innerRefs outline := by
  rw [refs, subterms_eq, List.map_cons, List.map_flatMap]
  rfl

@[simp] theorem refs_node (place : Place) (form : Form Place) :
    refs (.node place form) = place.ref :: (parts form).flatMap refs := refs_eq _

/-- The places below the root are some of the places. -/
theorem innerRefs_subset_refs (outline : Outline) : innerRefs outline ⊆ refs outline := by
  rw [refs_eq]
  exact List.subset_cons_self _ _

theorem ref_mem_refs (outline : Outline) : ref outline ∈ refs outline := by
  rw [refs_eq]
  exact .head _

theorem mem_refs {target : Ref} :
    target ∈ refs outline ↔ ∃ part ∈ outline.subterms, part.ref = target := List.mem_map

theorem mem_innerRefs {target : Ref} :
    target ∈ innerRefs outline ↔ ∃ child ∈ outline.children, target ∈ refs child := List.mem_flatMap

/-- The places of a subterm are some of the places. -/
theorem refs_sublist (member : part ∈ outline.subterms) :
    (refs part).Sublist (refs outline) := (subterms_sublist member).map ref

theorem refs_subset (member : part ∈ outline.subterms) :
    refs part ⊆ refs outline := (refs_sublist member).subset

/-- The places below the root of a subterm are below the root of the whole. -/
theorem innerRefs_subset (member : part ∈ outline.subterms) :
    innerRefs part ⊆ innerRefs outline := by
  rw [subterms_eq] at member
  rcases List.mem_cons.1 member with rfl | member
  · exact List.Subset.refl _
  · obtain ⟨child, childMember, inside⟩ := List.mem_flatMap.1 member
    intro ref inner
    exact mem_innerRefs.2 ⟨child, childMember, refs_subset inside (refs_eq part ▸ .tail _ inner)⟩

/-- Where no place occurs twice, that of the root is not below it. -/
theorem ref_not_mem_innerRefs (once : (refs outline).Nodup) :
    outline.ref ∉ innerRefs outline := by
  rw [refs_eq] at once
  exact (List.nodup_cons.1 once).1

/-- Where no place occurs twice, that of the root is not that of a part below a child. -/
theorem ref_ne_of_child {child : Outline} (once : (refs outline).Nodup)
    (held : child ∈ outline.children) (below : part ∈ child.subterms) : outline.ref ≠ part.ref :=
    fun same =>
  ref_not_mem_innerRefs once
    (mem_innerRefs.2 ⟨child, held, same ▸ refs_subset below (ref_mem_refs part)⟩)

/-- Where no place occurs twice, different terms of a list have no place in common. -/
theorem disjoint_of_nodup {terms : List Outline} (once : (terms.flatMap refs).Nodup)
    {term other : Outline} (member : term ∈ terms) (memberOther : other ∈ terms)
    (differ : term ≠ other) : term.refs.Disjoint other.refs := by
  have : Std.Symm (Function.onFun List.Disjoint refs) :=
    ⟨fun _ _ apart _ right left => apart left right⟩
  exact (List.nodup_flatMap.1 once).2.forall member memberOther differ

/-- Where no place occurs twice, there is one part at each place. -/
theorem subterm_unique {left right : Outline} (once : (refs outline).Nodup)
    (memberLeft : left ∈ outline.subterms) (memberRight : right ∈ outline.subterms)
    (same : left.ref = right.ref) : left = right :=
  List.inj_on_of_nodup_map once memberLeft memberRight same

/-- Where no place occurs twice, of two parts around a part one is around the other. -/
theorem subterms_comparable {left right : Outline} (once : (refs outline).Nodup)
    (memberLeft : left ∈ outline.subterms) (memberRight : right ∈ outline.subterms)
    (inLeft : part ∈ left.subterms) (inRight : part ∈ right.subterms) :
    left ∈ right.subterms ∨ right ∈ left.subterms := by
  induction outline using Term.induction with
  | step place form ih =>
    rw [subterms_node] at memberLeft memberRight
    rcases List.mem_cons.1 memberLeft with rfl | memberLeft
    · exact .inr (subterms_node place form ▸ memberRight)
    · rcases List.mem_cons.1 memberRight with rfl | memberRight
      · exact .inl (subterms_node place form ▸ .tail _ memberLeft)
      · obtain ⟨child, held, withinLeft⟩ := List.mem_flatMap.1 memberLeft
        obtain ⟨other, heldOther, withinRight⟩ := List.mem_flatMap.1 memberRight
        have below : part.ref ∈ child.refs :=
          refs_subset (subterms_trans withinLeft inLeft) (ref_mem_refs part)
        have belowOther : part.ref ∈ other.refs :=
          refs_subset (subterms_trans withinRight inRight) (ref_mem_refs part)
        have onceParts : ((parts form).flatMap refs).Nodup := by
          rw [refs_node] at once
          exact (List.nodup_cons.1 once).2
        obtain rfl : child = other := by
          by_contra differ
          exact disjoint_of_nodup onceParts held heldOther differ below belowOther
        exact ih child held
          (once.sublist (refs_sublist (@child_mem_subterms _ (.node place form) _ held)))
          withinLeft withinRight

end Term

namespace Tree

open Term

/-- A child position of a kind refers to the terms in a child position of a form. -/
def Holds (tree : Tree) : NodeSlot → Slot (Option Outline) (List Outline) → Prop
  | .one ref, .one child => child.bind Term.ref = ref ∧ ∀ term ∈ child, term.ref ≠ none
  | .many range, .many children =>
    tree.items range = children.map Term.ref ∧ range.start + range.length ≤ tree.lists.size
  | _, _ => False

/-- A kind of a node is a form with references to the children in place of the children. -/
structure Depicts (tree : Tree) (kind : NodeKind) (form : Form Place) : Prop where
  /-- The child positions refer to the children. -/
  slots : List.Forall₂ tree.Holds kind.slots form.slots
  /-- All else is the same. -/
  skeleton : kind.skeleton = form.skeleton

/-- The node at the place of the root of a term is what the term says. -/
def Shows (tree : Tree) (term : Outline) : Prop :=
  ∃ number kind, term.ref = some number ∧ tree.nodes[number]? = some ⟨kind, term.note.span⟩ ∧
    tree.Depicts kind term.kind

/-- The links of the children of a term lead to the term. -/
def Adopts (tree : Tree) (term : Outline) : Prop :=
  ∀ child ∈ term.children, tree.parent child.ref = term.ref

/-- A term stands in a tree when it is stored there with all links to parents below its root, and
no node is in two places of it. -/
structure Stands (tree : Tree) (term : Outline) : Prop where
  /-- The nodes are stored. -/
  shown : term.All tree.Shows
  /-- The links are right. -/
  adopted : term.All tree.Adopts
  /-- Every node has one place. -/
  once : term.refs.Nodup

/-- A reference to a stored node. -/
def HasRef (tree : Tree) (ref : Ref) : Prop := ∃ number < tree.size, ref = some number

/-- The children of a child position are stored, and a list lies in the list store. -/
def HasSlot (tree : Tree) : NodeSlot → Prop
  | .one ref => ref ≠ none → tree.HasRef ref
  | .many range => range.start + range.length ≤ tree.lists.size

/-- All references and lists lie in the stores of a tree. -/
structure Stored (tree : Tree) : Prop where
  /-- Every node has an entry for its parent. -/
  aligned : tree.parents.size = tree.size
  /-- The child positions of all nodes lie in the stores. -/
  slots : ∀ node ∈ tree.nodes, ∀ slot ∈ node.kind.slots, tree.HasSlot slot
  /-- The entries of all lists are stored. -/
  entries : ∀ ref ∈ tree.lists, tree.HasRef ref
  /-- So are all parents. -/
  links : ∀ ref ∈ tree.parents, ref ≠ none → tree.HasRef ref

end Tree

end Refactory
