import Refactory.Proofs.Tree.Mirror

/-!
# Trees that have only grown

A program to which nodes were added, and nothing else was done, is mirrored in what it has become:
its nodes keep their numbers, and the nodes to be added next get other ones
(`Tree.IsProgram.mirrors`). So what looks at a node of the program finds afterwards what it found
before.
-/
namespace Refactory

namespace Tree

open Term

/-- The number that a node has after a growth: that of a node which was there already, and the next
free ones for the nodes that would have been added instead. -/
def grownNumber (before after : Tree) (number : Nat) : Nat :=
  if number < before.size then number else number + (after.size - before.size)

variable {before after : Tree} {whole : Outline}

/-- Nodes that were there keep their numbers. -/
theorem HasRef.map_grownNumber {ref : Ref}
    (hasRef : before.HasRef ref) : ref.map (grownNumber before after) = ref := by
  obtain ⟨number, inside, rfl⟩ := hasRef
  rw [Option.map_some, grownNumber, if_pos inside]

theorem map_grownNumber_of_ne {ref : Ref} (hasRef : ref ≠ none → before.HasRef ref) :
    ref.map (grownNumber before after) = ref := by
  cases ref with
  | none => rfl
  | some number => exact (hasRef (Option.some_ne_none _)).map_grownNumber

/-- A list of stored nodes keeps its entries. -/
theorem Stored.mirrorsRange (stored : before.Stored) (frame : Frame [] [] before after)
    {range : Range}
    (inside : range.start + range.length ≤ before.lists.size) :
    MirrorsRange (grownNumber before after) before after range range where
  items := by
    rw [frame.items inside, List.map_congr_left (g := id) fun ref member => ?_, List.map_id]
    have listed : ref ∈ before.lists := by
      rw [items, Array.toList_extract, List.extract_eq_take_drop] at member
      exact Array.mem_toList_iff.1 (List.mem_of_mem_drop (List.mem_of_mem_take member))
    exact (stored.entries ref listed).map_grownNumber
  length := rfl
  stored := inside
  storedImage := Nat.le_trans inside frame.lists_size

/-- A node that was there is of the same kind. -/
theorem Stored.mirrorsKind (stored : before.Stored) (frame : Frame [] [] before after)
    {kind : NodeKind} (slots : ∀ slot ∈ kind.slots, before.HasSlot slot) :
    MirrorsKind (grownNumber before after) before after kind kind := by
  refine ⟨List.forall₂_same.2 fun slot member => ?_, rfl⟩
  cases slot with
  | one child => exact (map_grownNumber_of_ne (slots _ member)).symm
  | many range => exact stored.mirrorsRange frame (slots _ member)

/-- A program is mirrored in what it becomes when nodes are added. -/
theorem IsProgram.mirrors (program : before.IsProgram whole) (frame : Frame [] [] before after) :
    before.Mirrors (grownNumber before after) after := by
  have size := frame.size
  have stored := program.stored
  have outside {number : Nat}
      (more : ¬ number < before.size) : ¬ grownNumber before after number < after.size := by
    rw [grownNumber, if_neg more]
    omega
  refine ⟨fun left right same => ?_, fun count => ?_, size, fun ref => ?_, fun ref =>
    ?_, ?_, stored.aligned, (frame.stored stored).aligned⟩
  · simp only [grownNumber] at same
    split at same <;> split at same <;> omega
  · rw [grownNumber, if_neg (by omega)]
    omega
  · cases ref with
    | none => exact ⟨.nil, rfl⟩
    | some number =>
      by_cases less : number < before.size
      · rw [HasRef.map_grownNumber ⟨number, less, rfl⟩,
          frame.kind_eq ⟨number, less, rfl⟩ List.not_mem_nil]
        have found : before.nodes[number]? = some before.nodes[number] :=
          Array.getElem?_eq_getElem less
        have isKind : before.kind (some number) = before.nodes[number].kind := by
          rw [kind, node, found, Option.getD_some]
        rw [isKind]
        exact stored.mirrorsKind frame (stored.slots _ (Array.getElem_mem less))
      · have missing {tree : Tree} {number : Nat}
            (more : ¬ number < tree.size) : tree.kind (some number) = .null := by
          by_contra other
          obtain ⟨_, inside, ⟨⟩⟩ := hasRef_of_kind_ne other
          exact more inside
        rw [missing less, Option.map_some, missing (outside less)]
        exact ⟨.nil, rfl⟩
  · cases ref with
    | none => rfl
    | some number =>
      by_cases less : number < before.size
      · rw [HasRef.map_grownNumber ⟨number, less, rfl⟩, frame.parents number less List.not_mem_nil]
        refine (map_grownNumber_of_ne fun present => ?_).symm
        have entry : before.parents[number]? = some (before.parent (some number)) := by
          have inside : number < before.parents.size := stored.aligned.symm ▸ less
          rw [parent, Array.getElem?_eq_getElem inside, Option.getD_some]
        exact stored.links _ (Array.mem_of_getElem? entry) present
      · have missing {tree : Tree} {number : Nat} (aligned : tree.parents.size = tree.size)
          (more : ¬ number < tree.size) : tree.parent (some number) = none := by
          simp [parent, aligned, Nat.le_of_not_lt more]
        rw [missing stored.aligned less, Option.map_some,
          missing (frame.stored stored).aligned (outside less)]
        rfl
  · rw [frame.root, ← program.root]
    exact (program.stands.hasRef (ref_mem_refs whole)).map_grownNumber.symm

end Tree

end Refactory
