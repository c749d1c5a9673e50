import Refactory.Operator

/-!
# Node kinds

A kind says what a node of a program is and holds its children. The type is generic in what a
single child and a list of children are, so one set of kinds serves the terms that a reader
builds, whose children are terms, and the trees that edits change, whose children are references
into a store.

`Kind.slots` lists the child positions in source order and `Kind.withSlots` puts new children
into them; putting the slots of a kind back gives the kind (`Kind.withSlots_slots`).
-/
namespace Refactory

/-- What a node is, with its children of types `one` and `many`. -/
inductive Kind (one many : Type) where
  /-- Methods and top-level statements in source order. -/
  | unit (members : many)
  /-- A method declaration. -/
  | method (result : one) (name : String) (params : many) (body : one)
  /-- A parameter; one of a lambda has no type. -/
  | param (type : one) (name : String)
  /-- A type name with arguments, followed by `rank` array suffixes. -/
  | typeRef (name : String) (arguments : many) (rank : Nat)
  /-- Statements between braces. -/
  | block (statements : many)
  /-- A declaration of local variables of one type. -/
  | localDecl (type : one) (declarators : many)
  /-- One declared variable, with its initial value where it has one. -/
  | declarator (name : String) (value : one)
  /-- An expression as a statement. -/
  | exprStmt (expression : one)
  /-- A return from the method or lambda, with or without a value. -/
  | returnStmt (value : one)
  /-- A conditional statement, with or without an else branch. -/
  | ifStmt (condition thenBranch elseBranch : one)
  /-- A loop with a condition. -/
  | whileLoop (condition body : one)
  /-- A counted loop: the initializers count only where there is no declaration. -/
  | forLoop (declaration : one) (initializers : many) (condition : one) (incrementors : many)
      (body : one)
  /-- A loop over the elements of a collection. -/
  | forEach (type : one) (name : String) (collection body : one)
  /-- An integer literal. -/
  | int (value : Int)
  /-- A string literal: the text between the quotes, escapes untouched. -/
  | str (contents : String)
  /-- A truth value. -/
  | bool (value : Bool)
  /-- The null literal. -/
  | null
  /-- A name used as an expression. -/
  | ident (name : String)
  /-- A member access, which a conditional one skips on null. -/
  | member (receiver : one) (name : String) (conditional : Bool)
  /-- A call. -/
  | invoke (callee : one) (arguments : many)
  /-- An argument of a call. -/
  | argument (modifier : Modifier) (value : one)
  /-- An element access. -/
  | index (receiver : one) (arguments : many)
  /-- A lambda, whose parameters may stand in parentheses. -/
  | lambda (params : many) (body : one) (parenthesized : Bool)
  /-- A binary operation. -/
  | binary (op : BinaryOp) (left right : one)
  /-- A unary operation. -/
  | unary (op : UnaryOp) (operand : one)
  /-- An assignment. -/
  | assign (op : AssignOp) (target value : one)
  /-- An expression in parentheses. -/
  | paren (inner : one)
deriving DecidableEq, Inhabited

/-- A child position: it holds one child or a list of them. -/
inductive Slot (one many : Type) where
  /-- A position for one child. -/
  | one (child : one)
  /-- A position for a list of children. -/
  | many (children : many)
deriving DecidableEq, Inhabited

namespace Slot

variable {one many : Type}

/-- The child of a single position, or the given one where the position is not single. -/
def oneD (absent : one) : Option (Slot one many) → one
  | some (.one child) => child
  | _ => absent

/-- The list of a list position, or the given one where the position holds no list. -/
def manyD (empty : many) : Option (Slot one many) → many
  | some (.many children) => children
  | _ => empty

end Slot

namespace Kind

variable {one many one' many' : Type}

/-- The child positions in source order. -/
def slots : Kind one many → List (Slot one many)
  | unit members => [.many members]
  | method result _ params body => [.one result, .many params, .one body]
  | param type _ => [.one type]
  | typeRef _ arguments _ => [.many arguments]
  | block statements => [.many statements]
  | localDecl type declarators => [.one type, .many declarators]
  | declarator _ value => [.one value]
  | exprStmt expression => [.one expression]
  | returnStmt value => [.one value]
  | ifStmt condition thenBranch elseBranch => [.one condition, .one thenBranch, .one elseBranch]
  | whileLoop condition body => [.one condition, .one body]
  | forLoop declaration initializers condition incrementors body =>
    [.one declaration, .many initializers, .one condition, .many incrementors, .one body]
  | forEach type _ collection body => [.one type, .one collection, .one body]
  | int _ | str _ | bool _ | null | ident _ => []
  | member receiver _ _ => [.one receiver]
  | invoke callee arguments => [.one callee, .many arguments]
  | argument _ value => [.one value]
  | index receiver arguments => [.one receiver, .many arguments]
  | lambda params body _ => [.many params, .one body]
  | binary _ left right => [.one left, .one right]
  | unary _ operand => [.one operand]
  | assign _ target value => [.one target, .one value]
  | paren inner => [.one inner]

/-- The kind with the children of `slots` in its positions; a position for which there is no slot,
or one of the other shape, gets `absent` or `empty`. -/
def withSlots (absent : one') (empty : many') (kind : Kind one many)
    (slots : List (Slot one' many')) : Kind one' many' :=
  let one position := Slot.oneD absent slots[position]?
  let many position := Slot.manyD empty slots[position]?
  match kind with
  | unit _ => unit (many 0)
  | method _ name _ _ => method (one 0) name (many 1) (one 2)
  | param _ name => param (one 0) name
  | typeRef name _ rank => typeRef name (many 0) rank
  | block _ => block (many 0)
  | localDecl _ _ => localDecl (one 0) (many 1)
  | declarator name _ => declarator name (one 0)
  | exprStmt _ => exprStmt (one 0)
  | returnStmt _ => returnStmt (one 0)
  | ifStmt _ _ _ => ifStmt (one 0) (one 1) (one 2)
  | whileLoop _ _ => whileLoop (one 0) (one 1)
  | forLoop _ _ _ _ _ => forLoop (one 0) (many 1) (one 2) (many 3) (one 4)
  | forEach _ name _ _ => forEach (one 0) name (one 1) (one 2)
  | int value => int value
  | str contents => str contents
  | bool value => bool value
  | null => null
  | ident name => ident name
  | member _ name conditional => member (one 0) name conditional
  | invoke _ _ => invoke (one 0) (many 1)
  | argument modifier _ => argument modifier (one 0)
  | index _ _ => index (one 0) (many 1)
  | lambda _ _ parenthesized => lambda (many 0) (one 1) parenthesized
  | binary op _ _ => binary op (one 0) (one 1)
  | unary op _ => unary op (one 0)
  | assign op _ _ => assign op (one 0) (one 1)
  | paren _ => paren (one 0)

/-- Putting the slots of a kind back gives the kind. -/
theorem withSlots_slots (absent : one) (empty : many) (kind : Kind one many) :
    kind.withSlots absent empty kind.slots = kind := by
  cases kind <;> rfl

/-- The kinds that stand where an expression is wanted. -/
def isExpression : Kind one many → Bool
  | int _ | str _ | bool _ | null | ident _ | member _ _ _ | invoke _ _ | index _ _ | lambda _ _ _
  | binary _ _ _ | unary _ _ | assign _ _ _ | paren _ => true
  | _ => false

/-- The kinds that stand where a statement is wanted. -/
def isStatement : Kind one many → Bool
  | block _ | localDecl _ _ | exprStmt _ | returnStmt _ | ifStmt _ _ _ | whileLoop _ _
  | forLoop _ _ _ _ _ | forEach _ _ _ _ => true
  | _ => false

/-- The kinds that write a value down. -/
def isLiteral : Kind one many → Bool
  | int _ | str _ | bool _ | null => true
  | _ => false

/-- Methods are the members of a unit that are no statements. -/
def isMethod : Kind one many → Bool
  | method _ _ _ _ => true
  | _ => false

/-- The name of the kind in listings. -/
def label : Kind one many → String
  | unit _ => "CompilationUnit"
  | method _ _ _ _ => "Method"
  | param _ _ => "Param"
  | typeRef _ _ _ => "TypeRef"
  | block _ => "Block"
  | localDecl _ _ => "LocalDecl"
  | declarator _ _ => "Declarator"
  | exprStmt _ => "ExprStmt"
  | returnStmt _ => "Return"
  | ifStmt _ _ _ => "If"
  | whileLoop _ _ => "While"
  | forLoop _ _ _ _ _ => "For"
  | forEach _ _ _ _ => "ForEach"
  | int _ => "Int"
  | str _ => "Str"
  | bool _ => "Bool"
  | null => "Null"
  | ident _ => "Ident"
  | member _ _ _ => "Member"
  | invoke _ _ => "Invoke"
  | argument _ _ => "Argument"
  | index _ _ => "Index"
  | lambda _ _ _ => "Lambda"
  | binary _ _ _ => "Binary"
  | unary _ _ => "Unary"
  | assign _ _ _ => "Assign"
  | paren _ => "Paren"

/-- What a listing says of a kind beside its label and its children. -/
def detail : Kind one many → String
  | method _ name _ _ | param _ name | declarator name _ | forEach _ name _ _ | ident name => name
  | str contents => contents
  | typeRef name _ rank => name ++ " " ++ toString rank
  | int value => toString value
  | bool value => if value then "true" else "false"
  | member _ name conditional => (if conditional then "?." else ".") ++ name
  | argument modifier _ => modifier.keyword?.getD ""
  | lambda _ _ parenthesized => if parenthesized then "parens" else ""
  | binary op _ _ => op.symbol
  | assign op _ _ => op.symbol
  | unary op _ => op.name
  | _ => ""

end Kind

end Refactory
