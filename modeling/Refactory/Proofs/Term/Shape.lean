import Refactory.Proofs.Term.Rework

/-!
# Shapes of terms

The shape of a node is the node of the shapes below it, so that what is said of shapes can be
computed where a term is built (`Term.shape_node`).
-/
namespace Refactory

namespace Term

variable {α β : Type}

theorem mapSome_eq (f : α → β) (term : Option (Term α)) : mapSome f term = term.map (map f) := by
  cases term <;> rfl

theorem mapAll_eq (f : α → β) (terms : List (Term α)) : mapAll f terms = terms.map (map f) := by
  induction terms with
  | nil => rfl
  | cons term terms ih => rw [mapAll, ih, List.map_cons]

/-- The children of a form are mapped one by one. -/
theorem mapForm_eq (f : α → β) (form : Form α) : mapForm f form = mapChildren (map f) form := by
  cases form <;> simp only [mapForm, mapSome_eq, mapAll_eq] <;> rfl

attribute [simp] mapForm

/-- The shape of an optional child. -/
@[simp] theorem mapSome_unit (term : Option (Term α)) :
    mapSome (fun _ => ()) term = term.map shape := mapSome_eq _ term

/-- The shapes of a list of children. -/
@[simp] theorem mapAll_unit (terms : List (Term α)) :
    mapAll (fun _ => ()) terms = terms.map shape := mapAll_eq _ terms

/-- The shape of a node is the node of the shapes below it. -/
@[simp] theorem shape_node (note : α) (form : Form α) :
    (node note form).shape = node () (mapForm (fun _ => ()) form) := by
  rw [shape, map]

/-- Mapping the notes twice is mapping them once. -/
theorem map_map {γ : Type} (f : α → β) (g : β → γ) (term : Term α) :
    (term.map f).map g = term.map (g ∘ f) := by
  induction term using Term.induction with
  | step note form ih =>
    have same :
        mapChildren (map g) (mapChildren (map f) form) = mapChildren (map (g ∘ f)) form := by
      rw [mapChildren_mapChildren]
      exact mapChildren_congr ih
    simp only [map, mapForm_eq, same, Function.comp_apply]

/-- A term that is mapped keeps its shape. -/
theorem shape_map (f : α → β) (term : Term α) : (term.map f).shape = term.shape := map_map f _ term

/-- The note of a mapped term is its note, mapped. -/
theorem note_map (f : α → β) (term : Term α) : (term.map f).note = f term.note := by
  rcases term with ⟨note, form⟩
  rw [map]
  rfl

/-- The children of a mapped term are its children, mapped. -/
theorem children_map (f : α → β) (term : Term α) :
    (term.map f).children = term.children.map (map f) := by
  rcases term with ⟨note, form⟩
  rw [map, children, kind, mapForm_eq, parts_mapChildren]
  rfl

/-- Something holds throughout a mapped term when it holds of every part once this is mapped. -/
theorem all_map_iff {f : α → β} {property : Term β → Prop} {term : Term α} :
    (term.map f).All property ↔ term.All fun part => property (part.map f) := by
  induction term using Term.induction with
  | step note form ih =>
    constructor
    · intro all
      refine .intro all.here fun child member => ?_
      have inside : child.map f ∈ ((node note form).map f).children := by
        rw [children_map]
        exact List.mem_map_of_mem member
      exact (ih child member).1 (all.child inside)
    · intro all
      refine .intro all.here fun child member => ?_
      rw [children_map] at member
      obtain ⟨old, inside, rfl⟩ := List.mem_map.1 member
      exact (ih old inside).2 (all.child inside)

end Term

end Refactory
