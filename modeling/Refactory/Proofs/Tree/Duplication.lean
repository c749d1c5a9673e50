import Refactory.Proofs.Tree.Numbering

/-!
# Duplicates

A duplicate of a node is a copy of it and of all that is below it
(`Tree.WellFormed.duplicate_isCopy`). The copy is the only thing that is added: its nodes are the
ones with the next numbers, its links are those of its children, and it has no place, so that it can
be put anywhere. A child that was shared with the original would have two places; that there is none
follows from the numbers.
-/
namespace Refactory

namespace Tree

open Term

section

variable {before after : Tree} {outline : Outline}

/-- The new numbers are those of the term that was added. -/
theorem Adds.mem_refs_iff (adds : Adds before after [outline]) (number : Nat) :
    some number ∈ outline.refs ↔ before.size ≤ number ∧ number < after.size := by
  have numbered := adds.numbered
  have grows := adds.frame.size
  rw [List.flatMap_singleton] at numbered
  rw [← (evaluation_refs outline).mem_iff]
  change some number ∈ outline.postorder ↔ _
  rw [numbered, List.mem_map_of_injective (Option.some_injective _), List.mem_range'_1]
  omega

/-- The term that was added is a child of no node. -/
theorem Adds.not_mem_children (adds : Adds before after [outline]) (stored : before.Stored)
    (ref : Ref) :
    outline.ref ∉ after.children ref := by
  have stands := StandsAll.singleton_iff.1 adds.stands
  intro isChild
  obtain ⟨number, inside, rfl⟩ := exists_of_children_ne_nil (List.ne_nil_of_mem isChild)
  by_cases old : number < before.size
  · -- The children of an old node are old.
    rw [adds.frame.children_eq stored ⟨number, old, rfl⟩ List.not_mem_nil] at isChild
    obtain ⟨other, oldOther, same⟩ := stored.hasRef_of_child isChild
    have isNew := (adds.mem_refs_iff other).1 (same ▸ ref_mem_refs outline)
    omega
  · -- Those of a node of the copy are below its root.
    obtain ⟨part, within, same⟩ :=
      mem_refs.1 ((adds.mem_refs_iff number).2 ⟨Nat.le_of_not_lt old, inside⟩)
    rw [← same, (stands.shows within).children] at isChild
    obtain ⟨child, held, again⟩ := List.mem_map.1 isChild
    have isRoot :=
      subterm_unique stands.once (subterms_child within held) (self_mem_subterms outline) again
    have shorter := length_subterms_lt held
    have inOutline := (subterms_sublist within).length_le
    rw [isRoot] at shorter
    omega

end

/-- One node is a copy of another that was there before: it has the same shape and the same spans,
its nodes are the new ones, each is the parent of its children and has one place in the copy, and
the copy has no place in the tree. What was there before has the same kinds, spans, parents and
children, and the tree is well formed. -/
structure IsCopy (before : Tree) (ref copy : Ref) (after : Tree) : Prop where
  /-- The copy has the shape of the original, with the spans of the original. -/
  same : (after.outline copy).map Place.span = (before.outline ref).map Place.span
  /-- The nodes of the copy are exactly the new ones. -/
  fresh : ∀ node, node ∈ after.descendants copy ↔
    ∃ number, node = some number ∧ before.size ≤ number ∧ number < after.size
  /-- Each node of the copy is the parent of its children. -/
  linked : ∀ node ∈ after.descendants copy, ∀ child ∈ after.children node, after.parent child = node
  /-- Each node of the copy has one place in it. -/
  once : (after.descendants copy).Nodup
  /-- Nothing is above the copy. -/
  top : after.parent copy = none
  /-- The copy is no child of any node. -/
  notChild : ∀ node, copy ∉ after.children node
  /-- The copy is not the root, which is the same as before. -/
  root : copy ≠ after.root ∧ after.root = before.root
  /-- The old nodes have the same kinds and spans. -/
  nodes : ∀ number < before.size, after.node (some number) = before.node (some number)
  /-- They have the same parents. -/
  parents : ∀ number < before.size, after.parent (some number) = before.parent (some number)
  /-- They have the same children. -/
  children : ∀ number < before.size, after.children (some number) = before.children (some number)
  /-- The tree is still well formed. -/
  wellFormed : after.WellFormed

/-- Duplicating a node of a well-formed tree gives a copy of it. -/
theorem WellFormed.duplicate_isCopy {tree : Tree} (wellFormed : tree.WellFormed) {ref : Ref}
    (attached : ref ∈ tree.attached) :
    ∃ copy after, Tree.duplicate ref tree = (copy, after) ∧ IsCopy tree ref copy after := by
  obtain ⟨whole, program⟩ := wellFormed_iff.1 wellFormed
  rw [program.attached] at attached
  obtain ⟨term, within, rfl⟩ := mem_refs.1 attached
  have stands := program.stands.subterm within
  obtain ⟨outline, after, copied, adds, records⟩ :=
    duplicate_adds program.stored stands.shown stands.once
  have standsCopy := StandsAll.singleton_iff.1 adds.stands
  have stays {number : Nat} (inside : number < tree.size) : tree.HasRef (some number) :=
    ⟨number, inside, rfl⟩
  refine ⟨outline.ref, after, copied, ?_⟩
  constructor
  case same => rw [standsCopy.outline, stands.outline, records]
  case fresh =>
    intro node
    rw [standsCopy.descendants]
    constructor
    · intro isNode
      obtain ⟨number, -, rfl⟩ := standsCopy.hasRef isNode
      exact ⟨number, rfl, (adds.mem_refs_iff number).1 isNode⟩
    · rintro ⟨number, rfl, isNew⟩
      exact (adds.mem_refs_iff number).2 isNew
  case linked =>
    intro node isNode child isChild
    rw [standsCopy.descendants] at isNode
    obtain ⟨part, inside, rfl⟩ := mem_refs.1 isNode
    rw [(standsCopy.shows inside).children] at isChild
    obtain ⟨lower, held, rfl⟩ := List.mem_map.1 isChild
    exact standsCopy.parent inside held
  case once => exact standsCopy.descendants ▸ standsCopy.once
  case top => exact adds.unplaced outline (.head _)
  case notChild => exact adds.not_mem_children program.stored
  case root =>
    refine ⟨fun isRoot => ?_, adds.frame.root⟩
    obtain ⟨number, inside, place⟩ := wellFormed.root
    rw [adds.frame.root, place] at isRoot
    have isNew := (adds.mem_refs_iff number).1 (isRoot ▸ ref_mem_refs outline)
    omega
  case nodes => exact fun number inside => adds.frame.node_eq (stays inside) List.not_mem_nil
  case parents => exact fun number inside => adds.frame.parents number inside List.not_mem_nil
  case children => exact fun number inside =>
    adds.frame.children_eq program.stored (stays inside) List.not_mem_nil
  case wellFormed =>
    have programAfter : after.IsProgram whole := ⟨program.stands.of_growth adds.frame,
      program.root.trans adds.frame.root.symm, ?_, adds.frame.stored program.stored⟩
    · exact programAfter.wellFormed
    · obtain ⟨number, inside, place⟩ := wellFormed.root
      rw [adds.frame.root, place, adds.frame.parents number inside List.not_mem_nil, ← place]
      exact program.top

/-- A call with an argument list that is not empty is copied. -/
theorem WellFormed.duplicate_isCopy_of_parse :
    ∃ tree copy after, Tree.parse 0 "f(x => g(x), y);" = .ok tree ∧
    tree.WellFormed ∧ some 10 ∈ tree.attached ∧ Tree.duplicate (some 10) tree = (copy, after) ∧
      IsCopy tree (some 10) copy after := by
  have computed : (Tree.parse 0 "f(x => g(x), y);").toOption.any
      (fun tree => tree.attached.contains (some 10)) = true := by
    decide +kernel
  obtain ⟨tree, parsed, attached⟩ := exists_of_any computed
  obtain ⟨-, outline, -, program, -⟩ := exists_isProgram_of_parse parsed
  rw [List.contains_iff_mem] at attached
  obtain ⟨copy, after, copied, isCopy⟩ := program.wellFormed.duplicate_isCopy attached
  exact ⟨tree, copy, after, parsed, program.wellFormed, attached, copied, isCopy⟩

end Tree

end Refactory
