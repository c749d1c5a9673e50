import Refactory.Proofs.Grammar.Parser

/-!
# Marks of operators

Every operator is written as one mark, and a mark stands for at most one operator of each sort.
-/
namespace Refactory

variable {lexeme : Lexeme}

/-- The mark of a spelling. -/
def Mark.ofSpelling? (text : String) : Option Mark := all.find? (·.spelling == text)

/-- A mark is known by its spelling. -/
theorem Mark.ofSpelling?_spelling (mark : Mark) : ofSpelling? mark.spelling = some mark := by
  cases mark <;> rfl

/-- Two marks are spelled differently. -/
theorem Mark.spelling_injective {left right : Mark} (same : left.spelling = right.spelling) :
    left = right := by
  have known := ofSpelling?_spelling left
  rw [same, ofSpelling?_spelling right] at known
  exact (Option.some.inj known).symm

namespace BinaryOp

/-- The mark that stands for a binary operator. -/
def mark : BinaryOp → Mark
  | add => .plus
  | sub => .minus
  | mul => .star
  | div => .slash
  | mod => .percent
  | eq => .eqEq
  | notEq => .notEq
  | lt => .lt
  | ltEq => .ltEq
  | gt => .gt
  | gtEq => .gtEq
  | and => .andAnd
  | or => .orOr
  | coalesce => .questionQuestion

theorem symbol_eq (op : BinaryOp) : op.symbol = op.mark.spelling := by cases op <;> rfl

/-- The lexeme of a binary operator is its mark. -/
theorem ofLexeme?_eq_some {op : BinaryOp} :
    ofLexeme? lexeme = some op ↔ lexeme = .mark op.mark := by
  constructor
  · intro found
    cases lexeme with
    | mark sign =>
      have same := List.find?_some found
      rw [beq_iff_eq, symbol_eq] at same
      rw [Mark.spelling_injective same]
    | _ => cases found
  · rintro rfl
    cases op <;> rfl

end BinaryOp

namespace AssignOp

/-- The mark that stands for an assignment operator. -/
def mark : AssignOp → Mark
  | assign => .eq
  | addAssign => .plusEq
  | subAssign => .minusEq
  | mulAssign => .starEq
  | divAssign => .slashEq

theorem symbol_eq (op : AssignOp) : op.symbol = op.mark.spelling := by cases op <;> rfl

/-- The lexeme of an assignment operator is its mark. -/
theorem ofLexeme?_eq_some {op : AssignOp} :
    ofLexeme? lexeme = some op ↔ lexeme = .mark op.mark := by
  constructor
  · intro found
    cases lexeme with
    | mark sign =>
      have same := List.find?_some found
      rw [beq_iff_eq, symbol_eq] at same
      rw [Mark.spelling_injective same]
    | _ => cases found
  · rintro rfl
    cases op <;> rfl

end AssignOp

namespace UnaryOp

/-- The mark that stands for a unary operator. -/
def mark : UnaryOp → Mark
  | not => .bang
  | neg => .minus
  | preInc | postInc => .plusPlus
  | preDec | postDec => .minusMinus

theorem symbol_eq (op : UnaryOp) : op.symbol = op.mark.spelling := by cases op <;> rfl

/-- The lexeme of an operator in front of its operand is its mark. -/
theorem ofLeadingLexeme?_eq_some {op : UnaryOp} :
    ofLeadingLexeme? lexeme = some op ↔ lexeme = .mark op.mark ∧ op.isPostfix = false := by
  constructor
  · intro found
    unfold ofLeadingLexeme? at found
    split at found <;> cases found <;> exact ⟨rfl, rfl⟩
  · rintro ⟨rfl, isPrefix⟩
    cases op <;> first | rfl | cases isPrefix

end UnaryOp

end Refactory
