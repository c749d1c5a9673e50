import Refactory.Proofs.Term.Rework

/-!
# Subterms

The subterms of a term are the term itself and everything below it, in pre-order. What holds of all
of them holds throughout the term (`Term.all_iff_subterms`).
-/
namespace Refactory

namespace Term

variable {α β : Type}

/-- A term and everything below it in pre-order. -/
def subterms : Term α → List (Term α)
  | .node note form => .node note form :: (parts form).attach.flatMap fun ⟨child, _⟩ =>
    subterms child
termination_by term => sizeOf term
decreasing_by exact sizeOf_lt_of_mem_parts ‹_›

/-- The subterms of a node are the node and the subterms of its children. -/
theorem subterms_node (note : α) (form : Form α) :
    subterms (.node note form) = .node note form :: (parts form).flatMap subterms := by
  have unattached : (parts form).flatMap subterms
      = (parts form).attach.flatMap fun child => subterms child.1 := by
    conv => lhs; rw [← List.attach_map_subtype_val (parts form), List.flatMap_map]
  rw [subterms, unattached]

theorem subterms_eq (term : Term α) : subterms term = term :: term.children.flatMap subterms := by
  rcases term with ⟨note, form⟩
  exact subterms_node note form

theorem self_mem_subterms (term : Term α) : term ∈ subterms term := by
  rw [subterms_eq]
  exact .head _

/-- The subterms of a child are subterms. -/
theorem mem_subterms_of_child {term child part : Term α} (member : child ∈ term.children)
    (inside : part ∈ subterms child) : part ∈ subterms term := by
  rw [subterms_eq]
  exact .tail _ (List.mem_flatMap.2 ⟨child, member, inside⟩)

theorem child_mem_subterms {term child : Term α} (member : child ∈ term.children) :
    child ∈ subterms term := mem_subterms_of_child member (self_mem_subterms child)

/-- What holds throughout a term holds of all its subterms, and the other way round. -/
theorem all_iff_subterms {property : Term α → Prop} {term : Term α} :
    All property term ↔ ∀ part ∈ subterms term, property part := by
  induction term using Term.induction with
  | step note form ih =>
    rw [All.node_iff, subterms_node]
    constructor
    · rintro ⟨here, below⟩ part member
      rcases List.mem_cons.1 member with rfl | member
      · exact here
      · obtain ⟨child, member, inside⟩ := List.mem_flatMap.1 member
        exact (ih child member).1 (below child member) part inside
    · intro each
      refine ⟨each _ (.head _), fun child member => (ih child member).2 fun part inside => ?_⟩
      exact each part (.tail _ (List.mem_flatMap.2 ⟨child, member, inside⟩))

/-- What holds throughout a term holds throughout its subterms. -/
theorem All.subterm {property : Term α → Prop} {term part : Term α} (all : All property term)
    (member : part ∈ subterms term) : All property part := by
  induction term using Term.induction with
  | step note form ih =>
    rw [subterms_node] at member
    rcases List.mem_cons.1 member with rfl | member
    · exact all
    · obtain ⟨child, member, inside⟩ := List.mem_flatMap.1 member
      exact ih child member (all.child member) inside

/-- The subterms of a subterm are subterms. -/
theorem subterms_trans {whole term part : Term α} (inside : term ∈ subterms whole)
    (member : part ∈ subterms term) : part ∈ subterms whole := by
  have all : All (· ∈ subterms whole) whole := all_iff_subterms.2 fun _ => id
  exact all_iff_subterms.1 (all.subterm inside) part member

/-- The children of subterms are subterms. -/
theorem subterms_child {whole term child : Term α} (inside : term ∈ subterms whole)
    (member : child ∈ term.children) : child ∈ subterms whole :=
  subterms_trans inside (child_mem_subterms member)

/-- A subterm is the term itself or has a place among the children of another subterm. -/
theorem exists_holder {term part : Term α} (member : part ∈ subterms term) :
    part = term ∨ ∃ holder ∈ subterms term, part ∈ holder.children := by
  induction term using Term.induction with
  | step note form ih =>
    rw [subterms_node] at member
    rcases List.mem_cons.1 member with rfl | member
    · exact .inl rfl
    · obtain ⟨child, member, inside⟩ := List.mem_flatMap.1 member
      refine .inr ?_
      rcases ih child member inside with rfl | ⟨holder, within, held⟩
      · exact ⟨.node note form, self_mem_subterms _, member⟩
      · exact ⟨holder, mem_subterms_of_child member within, held⟩

/-- The subterms of a subterm are some of the subterms, in the same order. -/
theorem subterms_sublist {term part : Term α} (member : part ∈ subterms term) :
    (subterms part).Sublist (subterms term) := by
  induction term using Term.induction with
  | step note form ih =>
    rw [subterms_node] at member ⊢
    rcases List.mem_cons.1 member with rfl | member
    · rw [subterms_node]
    · obtain ⟨child, member, inside⟩ := List.mem_flatMap.1 member
      exact .cons _ ((ih child member inside).trans
        (List.sublist_flatten_of_mem (List.mem_map_of_mem member)))

/-- Two terms that are below each other are one term. -/
theorem eq_of_mem_subterms {term other : Term α} (within : term ∈ subterms other)
    (around : other ∈ subterms term) : term = other := by
  have same := (subterms_sublist within).antisymm (subterms_sublist around)
  rw [subterms_eq, subterms_eq other] at same
  exact (List.cons.inj same).1

end Term

end Refactory
