import Mathlib.Data.List.Forall2
import Refactory.Kind

/-!
# The skeleton and the child positions of a kind

A kind is made of a skeleton, which is what it is without its children, and of its child positions.
-/
namespace Refactory

namespace Slot

variable {one many one' many' : Type}

/-- Two positions for one child, or two for a list. -/
inductive Alike : Slot one many → Slot one' many' → Prop
  /-- Both hold one child. -/
  | one {child : one} {child' : one'} : Alike (.one child) (.one child')
  /-- Both hold a list. -/
  | many {children : many} {children' : many'} : Alike (.many children) (.many children')

theorem alike_one_iff {child : one} {slot : Slot one' many'} :
    Alike (.one child : Slot one many) slot ↔ ∃ child', slot = .one child' := by
  constructor
  · rintro ⟨⟩
    exact ⟨_, rfl⟩
  · rintro ⟨_, rfl⟩
    exact .one

theorem alike_many_iff {children : many} {slot : Slot one' many'} :
    Alike (.many children : Slot one many) slot ↔ ∃ children', slot = .many children' := by
  constructor
  · rintro ⟨⟩
    exact ⟨_, rfl⟩
  · rintro ⟨_, rfl⟩
    exact .many

end Slot

namespace Kind

variable {one many one' many' : Type}

/-- What a kind is without its children. -/
def skeleton (kind : Kind one many) : Kind Unit Unit := kind.withSlots () () []

@[simp] theorem skeleton_withSlots (kind : Kind one many) (absent : one') (empty : many')
    (slots : List (Slot one' many')) :
    (kind.withSlots absent empty slots).skeleton = kind.skeleton := by
  cases kind <;> rfl

theorem withSlots_skeleton (kind : Kind one many) (absent : one') (empty : many')
    (slots : List (Slot one' many')) :
    kind.skeleton.withSlots absent empty slots = kind.withSlots absent empty slots := by
  cases kind <;> rfl

/-- What a skeleton says of its kind is the same for two kinds with the same skeleton. -/
theorem eq_of_skeleton {α : Sort*} (said : ∀ {one many : Type}, Kind one many → α)
    (of_skeleton : ∀ {one many : Type} (kind : Kind one many), said kind.skeleton = said kind)
    {kind : Kind one many} {other : Kind one' many'} (same : kind.skeleton = other.skeleton) :
    said kind = said other := by
  rw [← of_skeleton, same, of_skeleton]

/-- Whether a kind is one of a statement does not depend on its children. -/
theorem isStatement_of_skeleton {kind : Kind one many} {other : Kind one' many'}
    (same : kind.skeleton = other.skeleton) : kind.isStatement = other.isStatement :=
  eq_of_skeleton (fun kind => kind.isStatement) (fun kind => by cases kind <;> rfl) same

/-- A kind is made of its skeleton and its children. -/
theorem eq_withSlots_of_skeleton {kind : Kind one many} {other : Kind one' many'} (absent : one)
    (empty : many) (same : other.skeleton = kind.skeleton) :
    kind = other.withSlots absent empty kind.slots := by
  rw [← withSlots_skeleton other, same, withSlots_skeleton, withSlots_slots]

/-- Slots that fit a kind are its slots once they are put into it. -/
theorem slots_withSlots (kind : Kind one many) {absent : one'} {empty : many'}
    {slots : List (Slot one' many')} (alike : List.Forall₂ Slot.Alike kind.slots slots) :
    (kind.withSlots absent empty slots).slots = slots := by
  cases kind
  all_goals
    simp only [Kind.slots, List.forall₂_cons_left_iff, List.forall₂_nil_left_iff,
      Slot.alike_one_iff, Slot.alike_many_iff] at alike
    obtain ⟨_, _, ⟨_, rfl⟩, ⟨_, _, ⟨_, rfl⟩, ⟨_, _, ⟨_, rfl⟩, ⟨_, _, ⟨_, rfl⟩,
      ⟨_, _, ⟨_, rfl⟩, rfl, rfl⟩, rfl⟩, rfl⟩, rfl⟩, rfl⟩ := alike
    rfl

end Kind

end Refactory
