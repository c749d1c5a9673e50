import Mathlib.Data.List.Forall2
import Refactory.Term

/-!
# The terms below a term

The children of a term are the terms in its slots, in source order. Every term is reached from the
terms without children, so that statements about all terms go by `Term.induction`: what holds of a
term whenever it holds of its children holds of every term.

`Term.All` says that something holds of a term and everything below it.
-/
namespace Refactory

namespace Slot

variable {α β : Type}

/-- The terms in a child position. -/
def terms : Slot (Option (Term α)) (List (Term α)) → List (Term α)
  | .one child => child.toList
  | .many children => children

/-- Two child positions whose terms are related one by one. -/
inductive Related (related : Term α → Term β → Prop) :
    Slot (Option (Term α)) (List (Term α)) → Slot (Option (Term β)) (List (Term β)) → Prop
  /-- No child on either side. -/
  | absent : Related related (.one none) (.one none)
  /-- Related children. -/
  | present {left : Term α} {right : Term β} (children : related left right) :
      Related related (.one (some left)) (.one (some right))
  /-- Lists of related children. -/
  | many {left : List (Term α)} {right : List (Term β)}
      (children : List.Forall₂ related left right) :
      Related related (.many left) (.many right)

end Slot

namespace Term

variable {α β : Type}

/-- The children of a form in source order. -/
def parts (form : Form α) : List (Term α) := form.slots.flatMap Slot.terms

attribute [simp] Kind.slots Slot.terms

/-- The children of a form are the terms in its child positions. -/
@[simp] theorem mem_parts {form : Form α} {child : Term α} :
    child ∈ parts form ↔ ∃ slot ∈ form.slots, child ∈ slot.terms := List.mem_flatMap

/-- The children of a term in source order. -/
def children (term : Term α) : List (Term α) := parts term.kind

/-- A child is smaller than the term above it. -/
theorem sizeOf_lt_of_mem_parts {note : α} {form : Form α} {child : Term α}
    (member : child ∈ parts form) : sizeOf child < sizeOf (node note form) := by
  have list {terms : List (Term α)} (inside : child ∈ terms) : sizeOf child < sizeOf terms :=
    List.sizeOf_lt_of_mem inside
  have single {term : Option (Term α)} (inside : term = some child) :
      sizeOf child < sizeOf term := by
    subst inside
    simp
  cases form <;> simp only [parts, Kind.slots, List.flatMap_cons, List.flatMap_nil,
    Slot.terms, List.append_nil, List.mem_append, Option.mem_toList, List.not_mem_nil] at member
  all_goals
    simp only [node.sizeOf_spec, Kind.unit.sizeOf_spec, Kind.method.sizeOf_spec,
      Kind.param.sizeOf_spec, Kind.typeRef.sizeOf_spec, Kind.block.sizeOf_spec,
      Kind.localDecl.sizeOf_spec, Kind.declarator.sizeOf_spec, Kind.exprStmt.sizeOf_spec,
      Kind.returnStmt.sizeOf_spec, Kind.ifStmt.sizeOf_spec, Kind.whileLoop.sizeOf_spec,
      Kind.forLoop.sizeOf_spec, Kind.forEach.sizeOf_spec, Kind.member.sizeOf_spec,
      Kind.invoke.sizeOf_spec, Kind.argument.sizeOf_spec, Kind.index.sizeOf_spec,
      Kind.lambda.sizeOf_spec, Kind.binary.sizeOf_spec, Kind.unary.sizeOf_spec,
      Kind.assign.sizeOf_spec, Kind.paren.sizeOf_spec]
    grind

/-- What holds of a term whenever it holds of all its children holds of every term. -/
theorem induction {motive : Term α → Prop}
    (step : ∀ note form, (∀ child ∈ parts form, motive child) → motive (.node note form)) :
    ∀ term, motive term
  | .node note form => step note form fun child _ => induction step child
termination_by term => sizeOf term
decreasing_by exact sizeOf_lt_of_mem_parts ‹_›

/-- A property of a term and of everything below it. -/
inductive All (property : Term α → Prop) : Term α → Prop
  /-- It holds of the term and all of its children. -/
  | intro {term : Term α} (here : property term)
      (below : ∀ child ∈ term.children, All property child) : All property term

namespace All

variable {property stronger : Term α → Prop}

/-- What holds throughout a term holds of the term. -/
theorem here {term : Term α} (all : All property term) : property term := by
  cases all with
  | intro here _ => exact here

/-- What holds throughout a term holds throughout its children. -/
theorem child {term child : Term α} (all : All property term) (member : child ∈ term.children) :
    All property child := by
  cases all with
  | intro _ below => exact below child member

/-- A property holds throughout a term when it holds of the term and throughout its children. -/
theorem node_iff {note : α} {form : Form α} :
    All property (.node note form) ↔
      property (.node note form) ∧ ∀ child ∈ parts form, All property child :=
  ⟨fun all => ⟨all.here, fun _ member => all.child member⟩, fun ⟨here, below⟩ => .intro here below⟩

/-- What follows from a property at each node follows throughout. -/
theorem mono (weaken : ∀ term, stronger term → property term) {term : Term α}
    (all : All stronger term) : All property term := by
  induction all with
  | intro here _ ih => exact .intro (weaken _ here) ih

end All

end Term

end Refactory
