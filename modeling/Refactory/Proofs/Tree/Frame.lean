import Refactory.Tree.Edit
import Refactory.Proofs.Tree.Standing

/-!
# What an edit leaves alone

A frame says of a tree before and after an edit which nodes may have changed and which links to
parents may have moved; all else is as before, and only new nodes and lists were added. A term that
lies outside stands as before (`Tree.Stands.of_frame`).
-/
namespace Refactory

variable {ref : Ref}

/-- An edit that starts with reading the tree. -/
theorem Edit.get_bind {α : Type} (next : Tree → Edit α) (tree : Tree) :
    ((get : Edit Tree) >>= next) tree = next tree tree := rfl

theorem Edit.bind_apply {α β : Type} (edit : Edit α) (next : α → Edit β) (tree : Tree) :
    (edit >>= next) tree = next (edit tree).1 (edit tree).2 := rfl

namespace Tree

open Term

/-- Before and after an edit, all stored nodes but the changed ones are the same, and so are all
links to parents but the moved ones. -/
structure Frame (changed moved : List Ref) (before after : Tree) : Prop where
  /-- No node is lost. -/
  size : before.size ≤ after.size
  /-- The other nodes are as they were. -/
  nodes : ∀ number < before.size, some number ∉ changed →
    after.nodes[number]? = before.nodes[number]?
  /-- The other links are as they were. -/
  parents : ∀ number < before.size, some number ∉ moved →
    after.parent (some number) = before.parent (some number)
  /-- No list is lost. -/
  lists : before.lists.toList <+: after.lists.toList
  /-- The root is the same. -/
  root : after.root = before.root
  /-- All stays in the stores. -/
  stored : before.Stored → after.Stored

section

variable {changed moved changed' moved' : List Ref} {before middle after : Tree}

/-- A reference into a tree is one into a larger tree. -/
theorem HasRef.mono (hasRef : before.HasRef ref) (size : before.size ≤ after.size) :
    after.HasRef ref := by
  obtain ⟨number, inside, rfl⟩ := hasRef
  exact ⟨number, Nat.lt_of_lt_of_le inside size, rfl⟩

/-- A child position that lies in the stores lies in larger ones. -/
theorem HasSlot.mono {slot : NodeSlot} (hasSlot : before.HasSlot slot)
    (size : before.size ≤ after.size) (lists : before.lists.size ≤ after.lists.size) :
    after.HasSlot slot := by
  cases slot with
  | one ref => exact fun present => (hasSlot present).mono size
  | many range => exact Nat.le_trans hasSlot lists

/-- A reference into a tree stays one. -/
theorem HasRef.of_frame (hasRef : before.HasRef ref)
    (frame : Frame changed moved before after) : after.HasRef ref := hasRef.mono frame.size

theorem Frame.refl (tree : Tree) : Frame changed moved tree tree where
  size := Nat.le_refl _
  nodes _ _ _ := rfl
  parents _ _ _ := rfl
  lists := List.prefix_rfl
  root := rfl
  stored := id

/-- A frame leaves as much alone as a smaller one. What is no reference into the tree does not
count. -/
theorem Frame.mono (frame : Frame changed moved before after)
    (changes : ∀ ref ∈ changed, before.HasRef ref → ref ∈ changed')
    (moves : ∀ ref ∈ moved, before.HasRef ref → ref ∈ moved') :
    Frame changed' moved' before after where
  __ := frame
  nodes number inside outside :=
    frame.nodes number inside fun member => outside (changes _ member ⟨number, inside, rfl⟩)
  parents number inside outside :=
    frame.parents number inside fun member => outside (moves _ member ⟨number, inside, rfl⟩)

/-- Two edits, one after the other, leave alone what both leave alone. -/
theorem Frame.trans (first : Frame changed moved before middle)
    (second : Frame changed' moved' middle after)
    (changes : ∀ ref ∈ changed', before.HasRef ref → ref ∈ changed)
    (moves : ∀ ref ∈ moved', before.HasRef ref → ref ∈ moved) :
    Frame changed moved before after where
  size := Nat.le_trans first.size second.size
  nodes number inside outside := by
    have later := second.nodes number (Nat.lt_of_lt_of_le inside first.size) fun member =>
      outside (changes _ member ⟨number, inside, rfl⟩)
    exact later.trans (first.nodes number inside outside)
  parents number inside outside := by
    have later := second.parents number (Nat.lt_of_lt_of_le inside first.size) fun member =>
      outside (moves _ member ⟨number, inside, rfl⟩)
    exact later.trans (first.parents number inside outside)
  lists := first.lists.trans second.lists
  root := second.root.trans first.root
  stored := second.stored ∘ first.stored

/-- An edit that only adds nodes does so after another one as well. -/
theorem Frame.grow (first : Frame changed moved before middle) (second : Frame [] [] middle after) :
    Frame changed moved before after :=
  first.trans second (fun _ member => absurd member List.not_mem_nil)
    fun _ member => absurd member List.not_mem_nil

/-- An edit before which nodes were added touches no more of what was there. -/
theorem Frame.after_growth (first : Frame [] [] before middle)
    (second : Frame changed moved middle after) : Frame changed moved before after :=
  (first.mono (fun _ member => absurd member List.not_mem_nil)
    fun _ member => absurd member List.not_mem_nil).trans second (fun _ member _ => member)
    fun _ member _ => member

/-- A reference into a tree leads to a node. -/
theorem HasRef.ne_none (hasRef : before.HasRef ref) : ref ≠ none := by
  obtain ⟨number, -, rfl⟩ := hasRef
  exact Option.some_ne_none number

/-- A stored list has the same entries in a longer list store. -/
theorem items_of_longer (lists : before.lists.toList <+: after.lists.toList) {range : Range}
    (inside : range.start + range.length ≤ before.lists.size) :
    after.items range = before.items range := by
  obtain ⟨more, spelled⟩ := lists
  have bound : range.start + range.length ≤ before.lists.toList.length := by simpa using inside
  rw [Tree.items, Tree.items, Array.toList_extract, Array.toList_extract, ← spelled,
    List.extract_eq_take_drop, List.extract_eq_take_drop, List.drop_append_of_le_length (by omega),
    List.take_append_of_le_length (by simp; omega)]

/-- A stored list has the same entries afterwards. -/
theorem Frame.items (frame : Frame changed moved before after) {range : Range}
    (inside : range.start + range.length ≤ before.lists.size) :
    after.items range = before.items range := items_of_longer frame.lists inside

/-- A node that is not changed is the same afterwards. -/
theorem Frame.node_eq (frame : Frame changed moved before after) (hasRef : before.HasRef ref)
    (outside : ref ∉ changed) : after.node ref = before.node ref := by
  obtain ⟨number, inside, rfl⟩ := hasRef
  rw [node, node, frame.nodes number inside outside]

/-- A node that is not changed has the same kind afterwards. -/
theorem Frame.kind_eq (frame : Frame changed moved before after) (hasRef : before.HasRef ref)
    (outside : ref ∉ changed) : after.kind ref = before.kind ref := by
  rw [kind, kind, frame.node_eq hasRef outside]

/-- A node that is not changed has the same children afterwards. -/
theorem Frame.children_eq (frame : Frame changed moved before after) (stored : before.Stored)
    (hasRef : before.HasRef ref)
    (outside : ref ∉ changed) : after.children ref = before.children ref := by
  obtain ⟨number, inside, rfl⟩ := hasRef
  have isNode : before.node (some number) = before.nodes[number] := by
    rw [node, Array.getElem?_eq_getElem inside, Option.getD_some]
  rw [children, children, frame.kind_eq ⟨number, inside, rfl⟩ outside, kindChildren, kindChildren]
  refine List.flatMap_congr fun slot isSlot => ?_
  rw [kind, isNode] at isSlot
  rcases slot with ref | range
  · cases ref <;> rfl
  · exact frame.items (stored.slots _ (Array.getElem_mem inside) _ isSlot)

theorem Frame.lists_size (frame : Frame changed moved before after) :
    before.lists.size ≤ after.lists.size := by
  simpa using frame.lists.length_le

end

section

variable {changed moved : List Ref} {before after : Tree} (frame : Frame changed moved before after)

include frame

theorem Holds.of_frame {slot : NodeSlot} {content : Slot (Option Outline) (List Outline)}
    (holds : before.Holds slot content) : after.Holds slot content := by
  cases slot <;> cases content
  · exact holds
  · exact holds
  · exact holds
  · obtain ⟨entries, inside⟩ := holds
    exact ⟨(frame.items inside).trans entries, Nat.le_trans inside frame.lists_size⟩

theorem Depicts.of_frame {kind : NodeKind} {form : Form Place}
    (depicts : before.Depicts kind form) :
    after.Depicts kind form :=
  ⟨depicts.slots.imp fun _ _ => Holds.of_frame frame, depicts.skeleton⟩

/-- A node that is not changed is shown as before. -/
theorem Shows.of_frame {term : Outline} (shows : before.Shows term) (outside : term.ref ∉ changed) :
    after.Shows term := by
  obtain ⟨number, kind, place, stored, depicts⟩ := shows
  have inside : number < before.size := (Array.getElem?_eq_some_iff.1 stored).1
  exact ⟨number, kind, place, (frame.nodes number inside (place ▸ outside)).trans stored,
    depicts.of_frame frame⟩

end

/-- The root of a term that a tree shows is a stored node. -/
theorem Shows.hasRef {tree : Tree} {term : Outline} (shows : tree.Shows term) :
    tree.HasRef term.ref := by
  obtain ⟨number, kind, place, stored, -⟩ := shows
  exact ⟨number, (Array.getElem?_eq_some_iff.1 stored).1, place⟩

namespace Stands

variable {changed moved : List Ref} {tree before after : Tree} {term part : Outline}

/-- The parts of a term that stands are shown. -/
theorem shows (stands : tree.Stands term) (member : part ∈ term.subterms) : tree.Shows part :=
  all_iff_subterms.1 stands.shown part member

/-- The nodes of a term that stands are stored. -/
theorem hasRef (stands : tree.Stands term) (member : ref ∈ term.refs) :
    tree.HasRef ref := by
  obtain ⟨part, inside, rfl⟩ := mem_refs.1 member
  exact (stands.shows inside).hasRef

/-- The parts of a term that stands stand. -/
theorem subterm (stands : tree.Stands term) (member : part ∈ term.subterms) : tree.Stands part :=
  ⟨stands.shown.subterm member, stands.adopted.subterm member,
    stands.once.sublist (refs_sublist member)⟩

/-- A term stands after an edit that leaves its nodes and the links below its root alone. -/
theorem of_frame (stands : before.Stands term) (frame : Frame changed moved before after)
    (unchanged : ∀ ref ∈ term.refs, ref ∉ changed)
    (unmoved : ∀ ref ∈ term.innerRefs, ref ∉ moved) : after.Stands term where
  shown := all_iff_subterms.2 fun part member =>
    (stands.shows member).of_frame frame (unchanged _ (mem_refs.2 ⟨part, member, rfl⟩))
  adopted := by
    refine all_iff_subterms.2 fun holder within child member => ?_
    have inside := subterms_child within member
    obtain ⟨number, stored, place⟩ := (stands.shows inside).hasRef
    have inner : child.ref ∈ term.innerRefs :=
      innerRefs_subset within (mem_innerRefs.2 ⟨child, member, ref_mem_refs child⟩)
    have before := all_iff_subterms.1 stands.adopted holder within child member
    rw [place] at before inner ⊢
    exact (frame.parents number stored (unmoved _ inner)).trans before
  once := stands.once

/-- A term stands after an edit that only adds nodes. -/
theorem of_growth (stands : before.Stands term) (frame : Frame [] [] before after) :
    after.Stands term :=
  stands.of_frame frame (fun _ _ => List.not_mem_nil) fun _ _ => List.not_mem_nil

end Stands

end Tree

end Refactory
