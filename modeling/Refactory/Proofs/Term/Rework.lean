import Refactory.Proofs.Term.Children

/-!
# Reworking a term from below

`Term.rework` makes a new term of an old one from below: a step is given each part together with its
form, in which the children are reworked already.

`Term.fold` gives a value for a term from below: a step is given the kind of each node with the
values of its children in place of these (`Term.fold_node`).
-/
namespace Refactory

namespace Term

variable {α β : Type}

/-- The form with `f` of each child. -/
def mapChildren (f : Term α → Term β) (form : Form α) : Form β :=
  form.withSlots none [] (form.slots.map fun
    | .one child => .one (child.map f)
    | .many children => .many (children.map f))

/-- The kind of a form with `f` of each child in place of the child. -/
def readChildren {δ : Type} (f : Term α → δ) (form : Form α) : Kind (Option δ) (List δ) :=
  form.withSlots none [] (form.slots.map fun
    | .one child => .one (child.map f)
    | .many children => .many (children.map f))

theorem mapChildren_lambda (f : Term α → Term β) (params : List (Term α)) (body : Option (Term α))
    (parenthesized : Bool) : mapChildren f (.lambda params body parenthesized)
      = .lambda (params.map f) (body.map f) parenthesized := rfl

theorem mapChildren_binary (f : Term α → Term β) (op : BinaryOp) (left right : Option (Term α)) :
    mapChildren f (.binary op left right) = .binary op (left.map f) (right.map f) := rfl

theorem mapChildren_unary (f : Term α → Term β) (op : UnaryOp) (operand : Option (Term α)) :
    mapChildren f (.unary op operand) = .unary op (operand.map f) := rfl

/-- The term made from below with a step. -/
def rework (step : Term α → Form β → Term β) : Term α → Term β
  | .node note form =>
    step (.node note form) <| form.withSlots none [] <| form.slots.attach.map fun
      | ⟨.one none, _⟩ => .one none
      | ⟨.one (some child), _⟩ => .one (some (rework step child))
      | ⟨.many children, _⟩ => .many (children.attach.map fun ⟨child, _⟩ => rework step child)
termination_by term => sizeOf term
decreasing_by
  all_goals
    refine sizeOf_lt_of_mem_parts (mem_parts.2 ⟨_, ‹_›, ?_⟩)
    simp_all

/-- A step of reworking is given the form whose children are reworked. -/
theorem rework_node (step : Term α → Form β → Term β) (note : α) (form : Form α) :
    rework step (.node note form)
      = step (.node note form) (mapChildren (rework step) form) := by
  rw [rework, mapChildren]
  congr 2
  conv => rhs; rw [← List.attach_map_subtype_val form.slots, List.map_map]
  refine List.map_congr_left ?_
  rintro ⟨slot, inside⟩ -
  rcases slot with (_ | child) | children
  · rfl
  · rfl
  · simp only [Function.comp_apply, List.map_attach_eq_pmap, List.pmap_eq_map]

attribute [simp] mapChildren readChildren Kind.withSlots Slot.oneD Slot.manyD

/-- A child position with `f` of each child. -/
def mapSlot (f : Term α → Term β) :
    Slot (Option (Term α)) (List (Term α)) → Slot (Option (Term β)) (List (Term β))
  | .one child => .one (child.map f)
  | .many children => .many (children.map f)

/-- The child positions of a form with `f` of each child. -/
theorem slots_mapChildren (f : Term α → Term β) (form : Form α) :
    (mapChildren f form).slots = form.slots.map (mapSlot f) := by
  cases form <;> rfl

/-- The children of a form with `f` of each child. -/
theorem parts_mapChildren (f : Term α → Term β) (form : Form α) :
    parts (mapChildren f form) = (parts form).map f := by
  cases form <;> simp [parts, Option.toList_map]

/-- Nothing changes where no child does. -/
theorem mapChildren_eq_self {f : Term α → Term α} {form : Form α}
    (same : ∀ child ∈ parts form, f child = child) : mapChildren f form = form := by
  have single {child : Option (Term α)} (inside : ∀ term ∈ child, term ∈ parts form) :
      child.map f = child := by
    cases child with
    | none => rfl
    | some term => exact congrArg some (same term (inside term rfl))
  have list {children : List (Term α)} (inside : ∀ term ∈ children, term ∈ parts form) :
      children.map f = children := by
    have unchanged := List.map_congr_left fun term member => same term (inside term member)
    rwa [List.map_id'] at unchanged
  cases form <;> simp_all

/-- Reading the children of a form with `f` of each child is reading the children after `f`. -/
theorem readChildren_mapChildren {δ : Type} (f : Term α → Term β) (g : Term β → δ) (form : Form α) :
    readChildren g (mapChildren f form) = readChildren (g ∘ f) form := by
  cases form <;> simp

/-- What is read of a form is determined by what is read of the children. -/
theorem readChildren_congr {δ : Type} {f g : Term α → δ} {form : Form α}
    (same : ∀ child ∈ parts form, f child = g child) :
    readChildren f form = readChildren g form := by
  have single {child : Option (Term α)} (inside : ∀ term ∈ child, term ∈ parts form) :
      child.map f = child.map g := by
    cases child with
    | none => rfl
    | some term => exact congrArg some (same term (inside term rfl))
  have list {children : List (Term α)} (inside : ∀ term ∈ children, term ∈ parts form) :
      children.map f = children.map g :=
    List.map_congr_left fun term member => same term (inside term member)
  cases form <;> simp_all

/-- Changing the children twice is changing them once. -/
theorem mapChildren_mapChildren {γ : Type} (f : Term α → Term β) (g : Term β → Term γ)
    (form : Form α) : mapChildren g (mapChildren f form) = mapChildren (g ∘ f) form :=
  readChildren_mapChildren f g form

/-- The form with `f` of each child is determined by what `f` makes of the children. -/
theorem mapChildren_congr {f g : Term α → Term β} {form : Form α}
    (same : ∀ child ∈ parts form, f child = g child) : mapChildren f form = mapChildren g form :=
  readChildren_congr same

theorem mapChildren_id (form : Form α) : mapChildren (fun term => term) form = form :=
  mapChildren_eq_self fun _ _ => rfl

/-- The value of a term, where `step` gives that of a node from those of its children. -/
def fold {δ : Type} (step : Kind (Option δ) (List δ) → δ) (term : Term α) : δ :=
  (rework (fun _ form => node (step (readChildren note form)) form) term).note

/-- The value of a node comes from the values of its children. -/
theorem fold_node {δ : Type} (step : Kind (Option δ) (List δ) → δ) (note : α) (form : Form α) :
    fold step (.node note form) = step (readChildren (fold step) form) := by
  rw [fold, rework_node]
  exact congrArg step (readChildren_mapChildren ..)

end Term

end Refactory
