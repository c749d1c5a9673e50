import Refactory.Layout
import Refactory.Proofs.Term.Shape

/-!
# What the layout shows

The layout of a node is made of the layouts of its children and of what sort they are. So two terms
are laid out alike when they differ only in children that are (`Layout.alike_mapChildren`). In
particular the notes of a term leave no trace in its written form: a term is written as its shape is
(`Term.written_shape`).
-/
namespace Refactory

namespace Layout

variable {α β : Type}

/-- The written form of a term, without the end of its line where the term is a block. -/
def inner (level : Nat) : Term α → String
  | .node _ (.block statements) => braces level (lines (level + 1) statements)
  | term => text level term

/-- Two terms that look the same wherever they stand. -/
structure Alike (left : Term α) (right : Term β) : Prop where
  /-- Their texts are the same. -/
  text : ∀ level, text level left = text level right
  /-- So are their texts within a line. -/
  inner : ∀ level, inner level left = inner level right
  /-- Their lines end in the same way. -/
  closing : closing left.kind = closing right.kind
  /-- Both are methods or none is. -/
  isMethod : left.kind.isMethod = right.kind.isMethod
  /-- Both are blocks or none is. -/
  isBlock : isBlock (some left) = isBlock (some right)
  /-- Both are conditional statements or none is. -/
  isConditional : isConditional left = isConditional right

theorem Alike.trans {γ : Type} {first : Term α} {second : Term β} {third : Term γ}
    (left : Alike first second) (right : Alike second third) : Alike first third where
  text level := (left.text level).trans (right.text level)
  inner level := (left.inner level).trans (right.inner level)
  closing := left.closing.trans right.closing
  isMethod := left.isMethod.trans right.isMethod
  isBlock := left.isBlock.trans right.isBlock
  isConditional := left.isConditional.trans right.isConditional

theorem lambdaBody_eq (level : Nat) (term : Term α) :
    lambdaBody level (some term) = inner level term := by
  rcases term with ⟨note, form⟩
  cases form <;> rfl

/-- A branch is a block on the line of its header, or a line of its own. -/
theorem branch_eq (level : Nat) (term : Term α) :
    branch level (some term) = if isBlock (some term) then " " ++ inner level term
      else "\n" ++ indent (level + 1) ++ text (level + 1) term ++ closing term.kind := by
  rcases term with ⟨note, form⟩
  cases form <;> rfl

/-- So is a body, except that a block ends its line and a chained conditional stays on it. -/
theorem embedded_eq (level : Nat) (chained : Bool) (term : Term α) :
    embedded level chained (some term) = if isBlock (some term) then " " ++ inner level term ++ "\n"
      else if chained && isConditional term then " " ++ text level term
      else "\n" ++ indent (level + 1) ++ text (level + 1) term ++ closing term.kind := by
  rcases term with ⟨note, form⟩
  cases form <;> rfl

/-- A loop opens with its declaration, which alone ends its line with a semicolon, or else with its
initializers. -/
theorem opening_eq (level : Nat) (initializers : String) (term : Term α) :
    opening level initializers (some term)
      = if closing term.kind = ";\n" then text level term else initializers := by
  rcases term with ⟨note, form⟩
  cases form <;> rfl

section

variable {f : Term α → Term β} {term : Option (Term α)} {terms : List (Term α)}

section

variable (alike : ∀ child ∈ term, Alike (f child) child) (level : Nat)

include alike

theorem child_congr :
    child level (term.map f) = child level term := by
  cases term with
  | none => rfl
  | some term => exact (alike term rfl).text level

theorem spaced_congr :
    spaced level (term.map f) = spaced level term := by
  cases term with
  | none => rfl
  | some term => simp only [Option.map_some, spaced, (alike term rfl).text level]

theorem initial_congr :
    initial level (term.map f) = initial level term := by
  cases term with
  | none => rfl
  | some term => simp only [Option.map_some, initial, (alike term rfl).text level]

theorem typed_congr :
    typed level (term.map f) = typed level term := by
  cases term with
  | none => rfl
  | some term => simp only [Option.map_some, typed, (alike term rfl).text level]

theorem lambdaBody_congr :
    lambdaBody level (term.map f) = lambdaBody level term := by
  cases term with
  | none => rfl
  | some term => rw [Option.map_some, lambdaBody_eq, lambdaBody_eq, (alike term rfl).inner level]

theorem branch_congr :
    branch level (term.map f) = branch level term := by
  cases term with
  | none => rfl
  | some term =>
    obtain ⟨text, inner, closing, -, isBlock, -⟩ := alike term rfl
    rw [Option.map_some, branch_eq, branch_eq, text, inner, closing, isBlock]

theorem embedded_congr (chained : Bool) :
    embedded level chained (term.map f) = embedded level chained term := by
  cases term with
  | none => rfl
  | some term =>
    obtain ⟨text, inner, closing, -, isBlock, isConditional⟩ := alike term rfl
    rw [Option.map_some, embedded_eq, embedded_eq, text, text, inner, closing, isBlock,
      isConditional]

theorem opening_congr (initializers : String) :
    opening level initializers (term.map f) = opening level initializers term := by
  cases term with
  | none => rfl
  | some term =>
    obtain ⟨text, -, closing, -⟩ := alike term rfl
    rw [Option.map_some, opening_eq, opening_eq, text, closing]

theorem isBlock_congr :
    isBlock (term.map f) = isBlock term := by
  cases term with
  | none => rfl
  | some term => exact (alike term rfl).isBlock

end

theorem items_congr (alike : ∀ child ∈ terms, Alike (f child) child) (level : Nat)
    (first : Bool) : items level first (terms.map f) = items level first terms := by
  induction terms generalizing first with
  | nil => rfl
  | cons term terms ih =>
    simp only [List.map_cons, items, (alike term (.head _)).text level,
      ih fun child member => alike child (.tail _ member)]

theorem lines_congr (alike : ∀ child ∈ terms, Alike (f child) child) (level : Nat) :
    lines level (terms.map f) = lines level terms := by
  induction terms with
  | nil => rfl
  | cons term terms ih =>
    simp only [List.map_cons, lines, (alike term (.head _)).text level,
      (alike term (.head _)).closing, ih fun child member => alike child (.tail _ member)]

theorem unitMembers_congr (alike : ∀ child ∈ terms, Alike (f child) child) (level : Nat)
    (wasMethod : Option Bool) :
    unitMembers level wasMethod (terms.map f) = unitMembers level wasMethod terms := by
  induction terms generalizing wasMethod with
  | nil => rfl
  | cons term terms ih =>
    simp only [List.map_cons, unitMembers, (alike term (.head _)).text level,
      (alike term (.head _)).closing, (alike term (.head _)).isMethod,
      ih fun child member => alike child (.tail _ member)]

end

section

variable {f : Term α → Term β} {note : α} {note' : β} {form : Term.Form α}
  (below : ∀ child ∈ Term.parts form, Alike (f child) child)

include below

/-- The text of a node is made of what is shown of its children. -/
theorem text_congr (level : Nat) :
    text level (.node note' (Term.mapChildren f form)) = text level (.node note form) := by
  cases form
  all_goals simp only [Term.mapChildren, Kind.withSlots, Kind.slots, List.map_cons, List.map_nil,
    Slot.oneD, Slot.manyD, List.getElem?_cons_zero, List.getElem?_cons_succ, text]
  all_goals
    try simp (disch := exact fun child inside => below child (by simp_all)) only
      [child_congr, spaced_congr, initial_congr, typed_congr, items_congr, lines_congr,
        unitMembers_congr, lambdaBody_congr, branch_congr, embedded_congr, opening_congr,
        isBlock_congr, Option.isNone_map, List.isEmpty_map, List.length_map]

/-- Nodes whose children look the same look the same. -/
theorem alike_mapChildren : Alike (.node note' (Term.mapChildren f form)) (.node note form) := by
  have texts := @text_congr _ _ f note note' form below
  refine ⟨texts, fun level => ?_, ?_, ?_, ?_, ?_⟩
  · cases form with
    | block statements => exact congrArg (braces level) (lines_congr (fun child inside =>
        below child (by simp [inside])) (level + 1))
    | _ => exact texts level
  all_goals cases form <;> rfl

end

/-- The notes show nowhere in the written form of a term. -/
theorem alike_map (f : α → β) (term : Term α) : Alike (term.map f) term := by
  induction term using Term.induction with
  | step note form ih =>
    rw [Term.map, Term.mapForm_eq]
    exact alike_mapChildren ih

end Layout

/-- Terms that look the same are written in the same way. -/
theorem Term.written_eq_of_alike {α β : Type} {left : Term α} {right : Term β}
    (alike : Layout.Alike left right)
    (sameSort : left.kind.isStatement = right.kind.isStatement) : left.written = right.written := by
  rw [written, written, Layout.line, Layout.line, alike.text, alike.closing, alike.isMethod,
    sameSort]

/-- A term is written as its shape is. -/
theorem Term.written_shape {α : Type} (term : Term α) : term.shape.written = term.written := by
  refine written_eq_of_alike (Layout.alike_map _ term) ?_
  rcases term with ⟨note, form⟩
  cases form <;> rfl

end Refactory
