import Refactory.Proofs.Grammar.Lookahead
import Refactory.Proofs.Grammar.Marks
import Refactory.Proofs.Term.Children

/-!
# Readable shapes

A shape is readable when it is what reading some text gives. This is said here without a reader:
at every node the children are of the sorts that the grammar has there and bind tightly enough
(`Shape.IsFormed`), an expression is not taken for a declaration by the lookahead
(`Shape.IsFalseDeclaration`), and a statement of the unit is not taken for a method
(`Shape.IsFalseMethod`). What names and string contents are like is left open (`Spelling`): the
tokens of a text that is longer than spans reach have others than the text.

The lexemes of a shape are listed in the order in which its layout shows them
(`Shape.lexemes`), since the lookahead works on them.
-/
namespace Refactory

/-- The keyword of a passing mode, where it has one. -/
def Modifier.lexemes : Modifier → List Lexeme
  | plain => []
  | ref => [.keyword .ref]
  | out => [.keyword .out]
  | .in => [.keyword .in]

namespace Lexeme

/-- A name is a word that is no keyword. -/
def isName (text : String) : Bool :=
  match text.toList with
  | [] => false
  | first :: rest =>
    isWordStart first && rest.all isWordRest && (Keyword.ofSpelling? text).isNone

/-- String contents are read as they stand. -/
def isContents (text : String) : Bool := literalContents text.toList == text.toList

end Lexeme

/-- What is asked of names and of the contents of string literals. -/
structure Spelling where
  /-- Whether a text will do as a name. -/
  isName : String → Bool
  /-- Whether a text will do as the contents of a string literal. -/
  isContents : String → Bool

namespace Spelling

/-- Names and contents as they are scanned. -/
def scanned : Spelling := ⟨Lexeme.isName, Lexeme.isContents⟩

/-- Any names and contents. -/
def any : Spelling := ⟨fun _ => true, fun _ => true⟩

@[simp] theorem isName_scanned (text : String) : scanned.isName text = Lexeme.isName text := rfl

@[simp] theorem isContents_scanned (text : String) :
    scanned.isContents text = Lexeme.isContents text := rfl

end Spelling

/-- A lexeme that the tokens of a text can have, with names and contents that will do. -/
def Lexeme.IsValid (spelling : Spelling) : Lexeme → Prop
  | .identifier name => spelling.isName name = true
  | .integer value => value ≤ largestInteger
  | .text contents => spelling.isContents contents = true
  | _ => True

namespace Token

variable {spelling : Spelling} {token : Token} {tokens : List Token}

/-- Tokens with lexemes that the tokens of a text can have. -/
def Valid (spelling : Spelling) (tokens : List Token) : Prop :=
  ∀ token ∈ tokens, token.lexeme.IsValid spelling

theorem Valid.tail (valid : Valid spelling (token :: tokens)) : Valid spelling tokens :=
  fun other member => valid other (.tail _ member)

theorem Valid.head (valid : Valid spelling (token :: tokens)) : token.lexeme.IsValid spelling :=
  valid token (.head _)

theorem Valid.right {used rest : List Token} (valid : Valid spelling (used ++ rest)) :
    Valid spelling rest := fun other member => valid other (List.mem_append_right _ member)

end Token

namespace Shape

open Lexeme

/-- What ends the line of a statement: a declaration has no semicolon of its own. -/
def closing : Shape → List Lexeme
  | .node _ (.localDecl _ _) => [.mark .semi]
  | _ => []

mutual

/-- The lexemes of a shape in the order of its layout. -/
def lexemes : Shape → List Lexeme
  | .node _ (.unit members) => lines members
  | .node _ (.method result name params body) =>
    one result ++ .identifier name :: .mark .lparen ::
      (separated true params ++ .mark .rparen :: one body)
  | .node _ (.param type name) => optional type ++ [Lexeme.identifier name]
  | .node _ (.typeRef name arguments rank) =>
    .identifier name :: (bracketed arguments ++ brackets rank)
  | .node _ (.block statements) => .mark .lbrace :: (lines statements ++ [Lexeme.mark .rbrace])
  | .node _ (.localDecl type declarators) => one type ++ separated true declarators
  | .node _ (.declarator name value) => .identifier name :: initial value
  | .node _ (.exprStmt expression) => one expression ++ [Lexeme.mark .semi]
  | .node _ (.returnStmt value) => .keyword .return :: (optional value ++ [Lexeme.mark .semi])
  | .node _ (.ifStmt condition thenBranch elseBranch) =>
    .keyword .if :: .mark .lparen :: (one condition ++ .mark .rparen ::
      (line thenBranch ++ elseLine elseBranch))
  | .node _ (.whileLoop condition body) =>
    .keyword .while :: .mark .lparen :: (one condition ++ .mark .rparen :: line body)
  | .node _ (.forLoop declaration initializers condition incrementors body) =>
    .keyword .for :: .mark .lparen :: (opening (separated true initializers) declaration ++
      .mark .semi :: (optional condition ++ .mark .semi :: (separated true incrementors ++
        .mark .rparen :: line body)))
  | .node _ (.forEach type name collection body) =>
    .keyword .forEach :: .mark .lparen :: (one type ++ .identifier name :: .keyword .in ::
      (one collection ++ .mark .rparen :: line body))
  | .node _ (.int value) => [.integer value.toNat]
  | .node _ (.str contents) => [.text contents]
  | .node _ (.bool value) => [.keyword (if value then .true else .false)]
  | .node _ .null => [.keyword .null]
  | .node _ (.ident name) => [.identifier name]
  | .node _ (.member receiver name conditional) =>
    one receiver ++ [Lexeme.mark (if conditional then .questionDot else .dot), .identifier name]
  | .node _ (.invoke callee arguments) =>
    one callee ++ .mark .lparen :: (separated true arguments ++ [Lexeme.mark .rparen])
  | .node _ (.argument modifier value) => modifier.lexemes ++ one value
  | .node _ (.index receiver arguments) =>
    one receiver ++ .mark .lbracket :: (separated true arguments ++ [Lexeme.mark .rbracket])
  | .node _ (.lambda params body parenthesized) =>
    (if parenthesized || params.length != 1 then
      .mark .lparen :: (separated true params ++ [Lexeme.mark .rparen])
    else separated true params) ++ .mark .arrow :: one body
  | .node _ (.binary op left right) => one left ++ .mark op.mark :: one right
  | .node _ (.unary op operand) =>
    if op.isPostfix then one operand ++ [Lexeme.mark op.mark] else .mark op.mark :: one operand
  | .node _ (.assign op target value) => one target ++ .mark op.mark :: one value
  | .node _ (.paren inner) => .mark .lparen :: (one inner ++ [Lexeme.mark .rparen])

/-- The lexemes of a child that is needed. -/
def one : Option Shape → List Lexeme
  | none => [.keyword .null]
  | some shape => lexemes shape

/-- The lexemes of an optional child. -/
def optional : Option Shape → List Lexeme
  | none => []
  | some shape => lexemes shape

/-- The lexemes of an initial value. -/
def initial : Option Shape → List Lexeme
  | none => []
  | some shape => .mark .eq :: lexemes shape

/-- The lexemes of a body or branch. -/
def line : Option Shape → List Lexeme
  | none => [.keyword .null]
  | some shape => lexemes shape ++ closing shape

/-- The lexemes of an else branch. -/
def elseLine : Option Shape → List Lexeme
  | none => []
  | some shape => .keyword .else :: (lexemes shape ++ closing shape)

/-- The lexemes that open a counted loop. -/
def opening (initializers : List Lexeme) : Option Shape → List Lexeme
  | some (.node _ (.localDecl type declarators)) => one type ++ separated true declarators
  | _ => initializers

/-- The lexemes of items with commas between them. -/
def separated (first : Bool) : List Shape → List Lexeme
  | [] => []
  | shape :: shapes =>
    (if first then [] else [.mark .comma]) ++ (lexemes shape ++ separated false shapes)

/-- The lexemes of type arguments. -/
def bracketed : List Shape → List Lexeme
  | [] => []
  | shape :: shapes => .mark .lt :: (lexemes shape ++ (separated false shapes ++ [Lexeme.mark .gt]))

/-- The lexemes of statements or members. -/
def lines : List Shape → List Lexeme
  | [] => []
  | shape :: shapes => lexemes shape ++ (closing shape ++ lines shapes)

end

/-- How tightly an expression holds together: lambdas and assignments not at all, binary operations
by the precedence of the operator, operators in front more and all else most. -/
def level (shape : Shape) : Nat :=
  match shape.kind with
  | .lambda _ _ _ | .assign _ _ _ => 0
  | .binary op _ _ => op.precedence
  | .unary op _ => if op.isPostfix then 9 else 8
  | _ => 9

/-- An operand of a certain level is an expression that holds together at least so tightly. -/
def isOperand (least : Nat) (shape : Shape) : Bool :=
  shape.kind.isExpression && least ≤ level shape

/-- The level of receivers, callees and operands of operators after them. -/
def postfixLevel : Nat := 9

/-- The level of operands of operators in front of them. -/
def prefixLevel : Nat := 8

/-- Whether a shape is a unit. -/
def isUnit (shape : Shape) : Bool :=
  match shape.kind with
  | .unit _ => true
  | _ => false

/-- Whether a shape is an expression. -/
def isExpression (shape : Shape) : Bool := shape.kind.isExpression

/-- Whether a shape is a statement. -/
def isStatement (shape : Shape) : Bool := shape.kind.isStatement

/-- Whether a shape is a statement or a method. -/
def isMember (shape : Shape) : Bool := shape.kind.isStatement || shape.kind.isMethod

/-- Whether a shape is a type. -/
def isType (shape : Shape) : Bool :=
  match shape.kind with
  | .typeRef _ _ _ => true
  | _ => false

/-- Whether a shape is a parameter with a type. -/
def isTypedParam (shape : Shape) : Bool :=
  match shape.kind with
  | .param (some _) _ => true
  | _ => false

/-- Whether a shape is a parameter without a type. -/
def isBareParam (shape : Shape) : Bool :=
  match shape.kind with
  | .param none _ => true
  | _ => false

/-- Whether a shape is a block. -/
def isBlock (shape : Shape) : Bool :=
  match shape.kind with
  | .block _ => true
  | _ => false

/-- Whether a shape is a local declaration. -/
def isDeclaration (shape : Shape) : Bool :=
  match shape.kind with
  | .localDecl _ _ => true
  | _ => false

/-- Whether a shape declares one variable. -/
def isDeclarator (shape : Shape) : Bool :=
  match shape.kind with
  | .declarator _ _ => true
  | _ => false

/-- Whether a shape is an argument of a call. -/
def isArgument (shape : Shape) : Bool :=
  match shape.kind with
  | .argument _ _ => true
  | _ => false

/-- Whether a shape is a lambda. -/
def isLambda (shape : Shape) : Bool :=
  match shape.kind with
  | .lambda _ _ _ => true
  | _ => false

/-- Whether an assignment operator after an expression is read as a part of it, where any expression
may stand: only after a block, which ends a lambda, it is not. -/
def swallows : Shape → Bool
  | .node _ (.lambda _ (some (.node _ (.block _))) _) => false
  | .node _ (.lambda _ (some body) _) => swallows body
  | .node _ (.assign _ _ (some value)) => swallows value
  | _ => true

/-- Whether an assignment operator after an operand is read as a part of it: the operand ends with a
lambda that swallows it. -/
def endsOpen : Shape → Bool
  | .node note (.lambda params body parenthesized) =>
    swallows (.node note (.lambda params body parenthesized))
  | .node _ (.binary .coalesce _ (some right)) => endsOpen right
  | _ => false

/-- A lambda swallows what its body does, and none after a block. -/
theorem swallows_lambda (note : Unit) (params : List Shape) (body : Shape) (parenthesized : Bool) :
    swallows (.node note (.lambda params (some body) parenthesized))
      = (!isBlock body && swallows body) := by
  rcases body with ⟨note, form⟩
  cases form <;> rfl

/-- Whether an else after a statement would be read as a part of it: it ends with a conditional
statement without an else branch. -/
def endsOpenIf : Shape → Bool
  | .node _ (.ifStmt _ _ none) => true
  | .node _ (.ifStmt _ _ (some elseBranch)) => endsOpenIf elseBranch
  | .node _ (.whileLoop _ (some body)) => endsOpenIf body
  | .node _ (.forLoop _ _ _ _ (some body)) => endsOpenIf body
  | .node _ (.forEach _ _ _ (some body)) => endsOpenIf body
  | _ => false

/-- A node whose children are of the sorts that the grammar has in their places. -/
def IsFormed (spelling : Spelling) : Shape → Prop
  | .node _ (.unit members) => members.all isMember
  | .node _ (.method result name params body) =>
    result.any isType ∧ spelling.isName name ∧ params.all isTypedParam ∧ body.any isBlock
  | .node _ (.param type name) => type.all isType ∧ spelling.isName name
  | .node _ (.typeRef name arguments rank) =>
    spelling.isName name ∧ arguments.all isType ∧ rank ≤ Parser.largestRank
  | .node _ (.block statements) => statements.all isStatement
  | .node _ (.localDecl type declarators) =>
    type.any isType ∧ declarators ≠ [] ∧ declarators.all isDeclarator
  | .node _ (.declarator name value) => spelling.isName name ∧ value.all isExpression
  | .node _ (.exprStmt expression) => expression.any isExpression
  | .node _ (.returnStmt value) => value.all isExpression
  | .node _ (.ifStmt condition thenBranch elseBranch) =>
    condition.any isExpression ∧ thenBranch.any isStatement ∧ elseBranch.all isStatement ∧
      (elseBranch.isSome → thenBranch.all (!endsOpenIf ·))
  | .node _ (.whileLoop condition body) => condition.any isExpression ∧ body.any isStatement
  | .node _ (.forLoop declaration initializers condition incrementors body) =>
    declaration.all isDeclaration ∧ (declaration.isSome → initializers = []) ∧
      initializers.all isExpression ∧ condition.all isExpression ∧
      incrementors.all isExpression ∧ body.any isStatement
  | .node _ (.forEach type name collection body) =>
    type.any isType ∧ spelling.isName name ∧ collection.any isExpression ∧ body.any isStatement
  | .node _ (.int value) => 0 ≤ value ∧ value ≤ largestInteger
  | .node _ (.str contents) => spelling.isContents contents
  | .node _ (.bool _) | .node _ .null => True
  | .node _ (.ident name) => spelling.isName name
  | .node _ (.member receiver name _) => receiver.any (isOperand postfixLevel) ∧
    spelling.isName name
  | .node _ (.invoke callee arguments) =>
    callee.any (isOperand postfixLevel) ∧ arguments.all isArgument
  | .node _ (.argument _ value) => value.any isExpression
  | .node _ (.index receiver arguments) =>
    receiver.any (isOperand postfixLevel) ∧ arguments ≠ [] ∧ arguments.all isExpression
  | .node _ (.lambda params body parenthesized) =>
    params.all isBareParam ∧ (parenthesized ∨ params.length = 1) ∧
      body.any fun body => isBlock body || isExpression body
  | .node _ (.binary op left right) =>
    if op = .coalesce then
      left.any (isOperand (op.precedence + 1)) ∧
        right.any fun right => isOperand op.precedence right || isLambda right
    else left.any (isOperand op.precedence) ∧ right.any (isOperand (op.precedence + 1))
  | .node _ (.unary op operand) =>
    operand.any (isOperand (if op.isPostfix then postfixLevel else prefixLevel))
  | .node _ (.assign _ target value) =>
    (target.any fun target =>
      isOperand BinaryOp.coalesce.precedence target && !endsOpen target) ∧ value.any isExpression
  | .node _ (.paren inner) => inner.any isExpression

/-- An expression statement, or the initializers of a counted loop, that the lookahead takes for a
local declaration. -/
def IsFalseDeclaration : Shape → Prop
  | .node _ (.exprStmt expression) => Ahead followsDeclared (one expression ++ [Lexeme.mark .semi])
  | .node _ (.forLoop none initializers _ _ _) =>
    Ahead followsDeclared (separated true initializers ++ [Lexeme.mark .semi])
  | _ => False

/-- A unit with an expression statement that the lookahead takes for a method. -/
def IsFalseMethod : Shape → Prop
  | .node _ (.unit members) =>
    ∃ expression note, .node note (.exprStmt expression) ∈ members ∧
      Ahead followsMethod (one expression ++ [Lexeme.mark .semi])
  | _ => False

/-- Whether a shape is a negation or a decrement, so that the sign of a negation in front would run
into its sign. -/
def isSigned (shape : Shape) : Bool :=
  match shape.kind with
  | .unary .neg _ | .unary .preDec _ => true
  | _ => false

/-- A negation of a negation or of a decrement. -/
def IsDoubleNegation : Shape → Prop
  | .node _ (.unary .neg operand) => operand.any isSigned
  | _ => False

/-- A node is sound when it is formed as the grammar says and not taken for a declaration. -/
structure IsSound (spelling : Spelling) (shape : Shape) : Prop where
  /-- The children are of the right sorts. -/
  formed : IsFormed spelling shape
  /-- No expression in it looks like a declaration. -/
  noDeclaration : ¬IsFalseDeclaration shape

/-- A shape is readable when it is a unit, all of its nodes are sound, and no statement of it looks
like a method. -/
structure Readable (spelling : Spelling) (shape : Shape) : Prop where
  /-- The shape is a unit. -/
  isUnit : isUnit shape = true
  /-- Every node is sound. -/
  sound : shape.All (IsSound spelling)
  /-- No statement looks like a method. -/
  noMethod : ¬IsFalseMethod shape

end Shape

end Refactory
