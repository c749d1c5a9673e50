import Refactory.Tree.Edit

/-!
# Building code

Edits that add nodes for the code that refactorings write. What is built has no place in the source,
and no place in the tree until it is put somewhere.
-/
namespace Refactory

namespace Build

/-- A node of a kind. -/
def node (kind : NodeKind) : Edit Ref := Tree.alloc kind .nowhere

/-- A name. -/
def ident (name : String) : Edit Ref := node (.ident name)

/-- An integer. -/
def int (value : Int) : Edit Ref := node (.int value)

/-- An expression in parentheses. -/
def paren (inner : Ref) : Edit Ref := node (.paren inner)

/-- A unary operation. -/
def unary (op : UnaryOp) (operand : Ref) : Edit Ref := node (.unary op operand)

/-- A binary operation. -/
def binary (op : BinaryOp) (left right : Ref) : Edit Ref := node (.binary op left right)

/-- A member access. -/
def member (receiver : Ref) (name : String) (conditional : Bool) : Edit Ref :=
  node (.member receiver name conditional)

/-- An access to the element at one index. -/
def index (receiver position : Ref) : Edit Ref := do
  node (.index receiver (← Tree.allocList [position]))

/-- A plain argument. -/
def argument (value : Ref) : Edit Ref := node (.argument .plain value)

/-- A call with plain arguments. -/
def invoke (callee : Ref) (values : List Ref) : Edit Ref := do
  let arguments ← values.mapM argument
  node (.invoke callee (← Tree.allocList arguments))

/-- A parameter without a type. -/
def param (name : String) : Edit Ref := node (.param none name)

/-- A lambda of one parameter. -/
def lambda (param body : Ref) (parenthesized : Bool) : Edit Ref := do
  node (.lambda (← Tree.allocList [param]) body parenthesized)

/-- A type without arguments. -/
def typeRef (name : String) : Edit Ref := node (.typeRef name .empty 0)

/-- A declaration of one local variable. -/
def localDecl (type name : String) (value : Ref) : Edit Ref := do
  let type ← typeRef type
  let declarator ← node (.declarator name value)
  node (.localDecl type (← Tree.allocList [declarator]))

/-- A block of statements. -/
def block (statements : List Ref) : Edit Ref := do
  node (.block (← Tree.allocList statements))

/-- A parameter with the name of another and a copy of its type. -/
def copyOfParam (param : Ref) : Edit Ref := do
  match (← get).kind param with
  | .param none name => node (.param none name)
  | .param type name => node (.param (← Tree.duplicate type) name)
  | _ => return param

end Build

end Refactory
