import Mathlib.Data.List.Perm.Subperm
import Refactory.Proofs.Tree.Adoption
import Refactory.Proofs.Tree.Preorder

/-!
# Reading a term that stands

Whatever walks through a tree finds the terms that stand in it: the outline of a node is the term at
the node (`Tree.Stands.outline`), its descendants are the places of the term, and the way up leads
through the parts around it.
-/
namespace Refactory

namespace Tree

open Term

/-- A child has fewer parts than the term above it. -/
theorem length_subterms_lt {α : Type} {term child : Term α} (member : child ∈ term.children) :
    child.subterms.length < term.subterms.length := by
  have inside : child.subterms.Sublist (term.children.flatMap subterms) :=
    List.sublist_flatten_of_mem (List.mem_map_of_mem member)
  rw [subterms_eq term, List.length_cons]
  exact Nat.lt_succ_of_le inside.length_le

section

variable {tree : Tree} {term : Outline}

/-- The kind of a node that is shown. -/
theorem Shows.depicts (shows : tree.Shows term) : tree.Depicts (tree.kind term.ref) term.kind := by
  obtain ⟨number, kind, place, stored, depicts⟩ := shows
  simpa [Tree.kind, node, place, stored] using depicts

/-- The span of a node that is shown. -/
theorem Shows.span (shows : tree.Shows term) : tree.span term.ref = term.note.span := by
  obtain ⟨number, kind, place, stored, -⟩ := shows
  simp [Tree.span, node, place, stored]

/-- The node at the place of a part. -/
theorem Shows.node_eq (shows : tree.Shows term) :
    tree.node term.ref = ⟨tree.kind term.ref, term.note.span⟩ := by
  rw [← shows.span]
  rfl

/-- A node that is shown has the roots of the parts below it for children. -/
theorem Shows.children (shows : tree.Shows term) :
    tree.children term.ref = term.children.map Term.ref := shows.depicts.kindChildren

/-- A list in the list store has as many entries as it announces. -/
theorem length_items {range : Range} (inside : range.start + range.length ≤ tree.lists.size) :
    (tree.items range).length = range.length := by
  simp only [items, Array.length_toList, Array.size_extract]
  omega

/-- A form that is shown announces no list that it does not have. -/
theorem Depicts.announced {kind : NodeKind} {form : Form Place} (depicts : tree.Depicts kind form) :
    Tree.announced kind form = form := by
  have length {range : Range} {children : List Outline}
      (holds : tree.Holds (.many range) (.many children)) : children.length = range.length := by
    rw [← length_items holds.2, holds.1, List.length_map]
  have slots := depicts.slots
  unfold Tree.announced
  split <;> simp only [Kind.slots, List.forall₂_cons] at slots
  · simp_all [Range.isEmpty, ← length slots.1]
  · simp_all [Range.isEmpty, ← length slots.2.2.2.1]
  · simp_all [← length slots.1]
  · rfl

/-- What a slot holds where the term at each node is known. -/
def content (tree : Tree) (pick : Ref → Outline) : NodeSlot → Slot (Option Outline) (List Outline)
  | .one none => .one none
  | .one child => .one (some (pick child))
  | .many range => .many ((tree.items range).map pick)

/-- A slot holds what stands there where the right terms are picked. -/
theorem Holds.content_eq {pick : Ref → Outline} {slot : NodeSlot}
    {content : Slot (Option Outline) (List Outline)} (holds : tree.Holds slot content)
    (picked : ∀ child ∈ content.terms, pick child.ref = child) :
    tree.content pick slot = content := by
  rcases slot with ref | range <;> rcases content with (_ | child) | children
  · obtain rfl : none = ref := holds.1
    rfl
  · obtain rfl : child.ref = ref := holds.1
    obtain ⟨number, place⟩ := Option.ne_none_iff_exists'.1 (holds.2 child rfl)
    have inside := picked child (by simp)
    rw [place] at inside ⊢
    simp only [Tree.content, inside]
  · cases holds
  · cases holds
  · cases holds
  · simp only [Tree.content, holds.1, List.map_map]
    congr 1
    conv => rhs; rw [← List.map_id children]
    exact List.map_congr_left fun child member => picked child (by simpa using member)

/-- The outline of a node is made of the outlines of its children. -/
theorem outlineWithin_succ (bound : Nat) (ref : Ref) :
    tree.outlineWithin (bound + 1) ref = .node ⟨ref, tree.span ref⟩
      (Tree.announced (tree.kind ref) ((tree.kind ref).withSlots none []
        ((tree.kind ref).slots.map (tree.content (tree.outlineWithin bound))))) := rfl

/-- The outline of a node is the term at the node, where the depth suffices. -/
theorem outlineWithin_eq (shown : term.All tree.Shows) {bound : Nat}
    (enough : term.subterms.length ≤ bound) : tree.outlineWithin bound term.ref = term := by
  induction bound generalizing term with
  | zero =>
    rw [subterms_eq] at enough
    exact absurd enough (by simp)
  | succ bound ih =>
    rcases term with ⟨place, form⟩
    have shows := shown.here
    have depicts := shows.depicts
    have below : ∀ child ∈ parts form, tree.outlineWithin bound child.ref = child := by
      intro child member
      have shorter := @length_subterms_lt _ (.node place form) _ member
      exact ih (shown.child member) (by omega)
    have contents : (tree.kind place.ref).slots.map (tree.content (tree.outlineWithin bound)) =
        form.slots := by
      have below : ∀ content ∈ form.slots, ∀ child ∈ content.terms,
          tree.outlineWithin bound child.ref = child :=
        fun content member child inside => below child (mem_parts.2 ⟨content, member, inside⟩)
      have slots := depicts.slots
      change List.Forall₂ tree.Holds (tree.kind place.ref).slots form.slots at slots
      generalize (tree.kind place.ref).slots = slots, form.slots = contents at slots below
      induction slots with
      | nil => rfl
      | @cons slot content slots contents holds _ ih =>
        rw [List.map_cons, ih fun other member => below other (.tail _ member)]
        rw [holds.content_eq (below content (.head _))]
    have whole : (tree.kind place.ref).withSlots none [] form.slots = form :=
      (Kind.eq_withSlots_of_skeleton none [] depicts.skeleton).symm
    have announced : Tree.announced (tree.kind place.ref) form = form := depicts.announced
    have span : tree.span place.ref = place.span := shows.span
    rw [ref_node, outlineWithin_succ, contents, whole, announced, span]

/-- A term that is shown without a place that occurs twice has no more parts than the tree has
nodes. -/
theorem length_le_of_shown (shown : term.All tree.Shows) (once : term.refs.Nodup) :
    term.subterms.length ≤ tree.size := by
  have inside : term.refs ⊆ (List.range tree.size).map some := by
    intro ref member
    obtain ⟨part, within, rfl⟩ := mem_refs.1 member
    obtain ⟨number, stored, place⟩ := (all_iff_subterms.1 shown part within).hasRef
    exact place ▸ List.mem_map_of_mem (List.mem_range.2 stored)
  have bound := (once.subperm inside).length_le
  simpa [refs] using bound

end

namespace Stands

variable {tree : Tree} {term part child : Outline}

/-- A term that stands has no more parts than the tree has nodes. -/
theorem length_le (stands : tree.Stands term) : term.subterms.length ≤ tree.size :=
  length_le_of_shown stands.shown stands.once

/-- The outline of a node is the term that stands there. -/
theorem outline (stands : tree.Stands term) : tree.outline term.ref = term :=
  outlineWithin_eq stands.shown (Nat.le_succ_of_le stands.length_le)

/-- The nodes met in pre-order from a node on are the places of the term that stands there. -/
theorem preorder (stands : tree.Stands term) {bound : Nat} (enough : term.subterms.length ≤ bound) :
    tree.preorder bound term.ref = term.refs := by
  induction bound generalizing term with
  | zero =>
    rw [subterms_eq] at enough
    exact absurd enough (by simp)
  | succ bound ih =>
    have below : ∀ child ∈ term.children, tree.preorder bound child.ref = child.refs := by
      intro child member
      have shorter := length_subterms_lt member
      exact ih (stands.subterm (child_mem_subterms member)) (by omega)
    rw [Tree.preorder, stands.shown.here.children, refs_eq, innerRefs, List.flatMap_map]
    exact congrArg (term.ref :: ·) (List.flatMap_congr below)

/-- The descendants of a node are the places of the term that stands there. -/
theorem descendants (stands : tree.Stands term) : tree.descendants term.ref = term.refs := by
  obtain ⟨number, -, place⟩ := stands.shown.here.hasRef
  rw [place, descendants_some, ← place]
  exact stands.preorder (Nat.le_succ_of_le stands.length_le)

/-- The link of a part leads to the part that holds it. -/
theorem parent (stands : tree.Stands term) (within : part ∈ term.subterms)
    (member : child ∈ part.children) : tree.parent child.ref = part.ref :=
  all_iff_subterms.1 stands.adopted part within child member

end Stands

/-- The shape of a tree is that of the term that its root stands for. -/
def shape (tree : Tree) : Shape := (tree.outline tree.root).shape

/-- A tree is a program when a term stands at its root, nothing is above the root, and all lies in
the stores. -/
structure IsProgram (tree : Tree) (term : Outline) : Prop where
  /-- The term stands. -/
  stands : tree.Stands term
  /-- It stands at the root. -/
  root : term.ref = tree.root
  /-- Nothing is above it. -/
  top : tree.parent tree.root = none
  /-- All lies in the stores. -/
  stored : tree.Stored

namespace IsProgram

variable {tree : Tree} {term part : Outline} {ref : Ref}

/-- The outline of the root of a program is its term. -/
theorem outline_root (program : tree.IsProgram term) : tree.outline tree.root = term := by
  rw [← program.root]
  exact program.stands.outline

/-- The nodes of a program in pre-order are the places of its term. -/
theorem attached (program : tree.IsProgram term) : tree.attached = term.refs := by
  rw [Tree.attached, ← program.root]
  exact program.stands.descendants

/-- Above a part of a program is another part, or nothing above all of it. -/
theorem parent_cases (program : tree.IsProgram term) (member : part ∈ term.subterms) :
    (part = term ∧ tree.parent part.ref = none) ∨
      ∃ holder ∈ term.subterms, part ∈ holder.children ∧ tree.parent part.ref = holder.ref := by
  rcases exists_holder member with rfl | ⟨holder, within, held⟩
  · exact .inl ⟨rfl, program.root ▸ program.top⟩
  · exact .inr ⟨holder, within, held, program.stands.parent within held⟩

/-- The parent of a node of a program is a node of the program. -/
theorem parent_mem (program : tree.IsProgram term) (member : ref ∈ term.refs)
    (present : tree.parent ref ≠ none) : tree.parent ref ∈ term.refs := by
  obtain ⟨part, within, rfl⟩ := mem_refs.1 member
  rcases program.parent_cases within with ⟨-, absent⟩ | ⟨holder, inside, -, same⟩
  · exact absurd absent present
  · exact same ▸ mem_refs.2 ⟨holder, inside, rfl⟩

/-- The nodes at and below a node of a program are nodes of the program. -/
theorem descendants_subset (program : tree.IsProgram term) (member : ref ∈ term.refs) :
    tree.descendants ref ⊆ term.refs := by
  obtain ⟨part, within, rfl⟩ := mem_refs.1 member
  rw [(program.stands.subterm within).descendants]
  exact refs_subset within

/-- The nodes around a node of a program are nodes of the program. -/
theorem lineage_subset (program : tree.IsProgram term) (member : ref ∈ term.refs) :
    tree.lineage ref ⊆ term.refs := by
  have above (bound : Nat) {ref : Ref} (member : ref ∈ term.refs) :
      tree.ancestorsWithin bound ref ⊆ term.refs := by
    induction bound generalizing ref with
    | zero => simp [ancestorsWithin]
    | succ bound ih =>
      rw [ancestorsWithin]
      split
      · simp
      · rename_i parent same
        have inside := program.parent_mem member (same ▸ nofun)
        rw [same] at inside
        exact List.cons_subset.2 ⟨inside, ih inside⟩
  exact List.cons_subset.2 ⟨member, above _ member⟩

end IsProgram

end Tree

end Refactory
