/-!
# Operators

The binary, unary and assignment operators of the language with their symbols, and the passing
modes of arguments. The precedence of a binary operator says how its operands bind, and negation
pairs each comparison with the one that holds exactly when it does not.
-/
namespace Refactory

/-- The operators written between two operands. -/
inductive BinaryOp where
  /-- Addition. -/
  | add
  /-- Subtraction. -/
  | sub
  /-- Multiplication. -/
  | mul
  /-- Division. -/
  | div
  /-- Remainder. -/
  | mod
  /-- Equality. -/
  | eq
  /-- Inequality. -/
  | notEq
  /-- Less than. -/
  | lt
  /-- At most. -/
  | ltEq
  /-- Greater than. -/
  | gt
  /-- At least. -/
  | gtEq
  /-- Conjunction. -/
  | and
  /-- Disjunction. -/
  | or
  /-- The left operand unless it is null, else the right one. -/
  | coalesce
deriving DecidableEq, Inhabited

namespace BinaryOp

/-- Every binary operator once. -/
def all : List BinaryOp :=
  [add, sub, mul, div, mod, eq, notEq, lt, ltEq, gt, gtEq, and, or, coalesce]

/-- The symbol that stands for the operator in source text. -/
def symbol : BinaryOp → String
  | add => "+"
  | sub => "-"
  | mul => "*"
  | div => "/"
  | mod => "%"
  | eq => "=="
  | notEq => "!="
  | lt => "<"
  | ltEq => "<="
  | gt => ">"
  | gtEq => ">="
  | and => "&&"
  | or => "||"
  | coalesce => "??"

/-- Binding strength, from 1 to `tightest`; an operator with a higher one binds tighter. -/
def precedence : BinaryOp → Nat
  | coalesce => 1
  | or => 2
  | and => 3
  | eq | notEq => 4
  | lt | ltEq | gt | gtEq => 5
  | add | sub => 6
  | mul | div | mod => 7

/-- The precedence of the operators that bind tightest. -/
def tightest : Nat := 7

/-- The comparison that holds exactly when this one does not; other operators have none. -/
def negated? : BinaryOp → Option BinaryOp
  | eq => some notEq
  | notEq => some eq
  | lt => some gtEq
  | gtEq => some lt
  | gt => some ltEq
  | ltEq => some gt
  | _ => none

/-- A comparison is an operator with a negation. -/
def isComparison (op : BinaryOp) : Bool := op.negated?.isSome

/-- A short-circuiting operator may leave its right operand unevaluated. -/
def shortCircuits : BinaryOp → Bool
  | and | or | coalesce => true
  | _ => false

/-- The operator that a symbol stands for. -/
def ofSymbol? (text : String) : Option BinaryOp := all.find? (·.symbol == text)

/-- Negating a comparison twice restores it. -/
theorem negated?_negated? {op other : BinaryOp} (negation : op.negated? = some other) :
    other.negated? = some op := by
  revert negation
  cases op <;> cases other <;> decide

end BinaryOp

/-- The operators with one operand. -/
inductive UnaryOp where
  /-- Logical negation. -/
  | not
  /-- Arithmetic negation. -/
  | neg
  /-- Increment, with the new value. -/
  | preInc
  /-- Decrement, with the new value. -/
  | preDec
  /-- Increment, with the old value. -/
  | postInc
  /-- Decrement, with the old value. -/
  | postDec
deriving DecidableEq, Inhabited

namespace UnaryOp

/-- Every unary operator once. -/
def all : List UnaryOp := [not, neg, preInc, preDec, postInc, postDec]

/-- The symbol that stands for the operator in source text. -/
def symbol : UnaryOp → String
  | not => "!"
  | neg => "-"
  | preInc | postInc => "++"
  | preDec | postDec => "--"

/-- The name that tells the operators of one symbol apart. -/
def name : UnaryOp → String
  | not => "Not"
  | neg => "Neg"
  | preInc => "PreInc"
  | preDec => "PreDec"
  | postInc => "PostInc"
  | postDec => "PostDec"

/-- A postfix operator is written after its operand. -/
def isPostfix : UnaryOp → Bool
  | postInc | postDec => true
  | _ => false

/-- Increments and decrements write their operand. -/
def writesOperand : UnaryOp → Bool
  | preInc | preDec | postInc | postDec => true
  | _ => false

/-- The operator of a name. -/
def ofName? (text : String) : Option UnaryOp := all.find? (·.name == text)

end UnaryOp

/-- The operators that assign to their left operand. -/
inductive AssignOp where
  /-- Plain assignment. -/
  | assign
  /-- Assignment of the sum. -/
  | addAssign
  /-- Assignment of the difference. -/
  | subAssign
  /-- Assignment of the product. -/
  | mulAssign
  /-- Assignment of the quotient. -/
  | divAssign
deriving DecidableEq, Inhabited

namespace AssignOp

/-- Every assignment operator once. -/
def all : List AssignOp := [assign, addAssign, subAssign, mulAssign, divAssign]

/-- The symbol that stands for the operator in source text. -/
def symbol : AssignOp → String
  | assign => "="
  | addAssign => "+="
  | subAssign => "-="
  | mulAssign => "*="
  | divAssign => "/="

/-- The operator that a symbol stands for. -/
def ofSymbol? (text : String) : Option AssignOp := all.find? (·.symbol == text)

end AssignOp

/-- How an argument is passed to a call. -/
inductive Modifier where
  /-- By value. -/
  | plain
  /-- By reference, for reading and writing. -/
  | ref
  /-- By reference, to be written. -/
  | out
  /-- By reference, for reading only. -/
  | in
deriving DecidableEq, Inhabited

namespace Modifier

/-- Every passing mode once. -/
def all : List Modifier := [plain, ref, out, Modifier.in]

/-- The keyword before the argument, where there is one. -/
def keyword? : Modifier → Option String
  | plain => none
  | ref => some "ref"
  | out => some "out"
  | .in => some "in"

/-- A writable argument may be written by the call. -/
def isWritable : Modifier → Bool
  | ref | out => true
  | _ => false

/-- The passing mode that a keyword names, the empty one naming the plain mode. -/
def ofKeyword? (text : String) : Option Modifier := all.find? (·.keyword?.getD "" == text)

end Modifier

end Refactory
