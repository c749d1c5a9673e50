import Refactory.Grammar.Cursor
import Refactory.Tree.Edit

/-!
# Reading trees

A program is read by recursive descent: types, expressions from assignments down to primaries, and
statements, methods and whole units. Binary operators bind as `BinaryOp.precedence` says, all to
the left except the coalescing operator. Every node carries the span from its first token to its
last one.

A node is stored as soon as its last token is read, so after its children, and a list of children
when the node that holds it is stored, but the parameters of a method before its body. Nothing is
stored that is not part of the program: the tests that look ahead store nothing, and where the
program is refused there is no tree.

`Tree.parse` gives the tree of a source text or the first reason why it has none. The depth of the
recursion is limited by a number that grows with the number of tokens, since fewer than
`Parser.stepsPerToken` recursive steps follow one another without reading a token.
-/
namespace Refactory

/-- The binary operator that a lexeme stands for. -/
def BinaryOp.ofLexeme? : Lexeme → Option BinaryOp
  | .mark sign => ofSymbol? sign.spelling
  | _ => none

/-- The assignment operator that a lexeme stands for. -/
def AssignOp.ofLexeme? : Lexeme → Option AssignOp
  | .mark sign => ofSymbol? sign.spelling
  | _ => none

/-- The operator that a lexeme in front of an operand stands for. -/
def UnaryOp.ofLeadingLexeme? : Lexeme → Option UnaryOp
  | .mark .bang => some .not
  | .mark .minus => some .neg
  | .mark .plusPlus => some .preInc
  | .mark .minusMinus => some .preDec
  | _ => none

/-- The passing mode that a lexeme in front of an argument stands for. -/
def Modifier.ofLexeme : Lexeme → Modifier
  | .keyword .ref => .ref
  | .keyword .out => .out
  | .keyword .in => .in
  | _ => .plain

namespace Parser

/-- The highest number of array suffixes that a type keeps. -/
def largestRank : Nat := 255

/-- Moves past the keyword of an else branch if it is in front, and tells whether it was. -/
def eatElse : Parser Bool := do
  if (← lexeme) == .keyword .else then
    advance
    return true
  else
    return false

/-- The number of recursive steps that may follow one another for each token read. -/
def stepsPerToken : Nat := 16

/-- A bound that suffices to read the tokens of a unit. -/
def unitBound (tokens : List Token) : Nat := stepsPerToken * (tokens.length + 1)

end Parser

/-- A step of the parser that stores what it reads in a tree. -/
abbrev Builder (α : Type) := StateT Tree Parser α

namespace Builder

open Refactory.Parser Refactory.Tree

/-- Nothing is read to change a tree. -/
instance : MonadLift Edit Builder := ⟨fun edit tree => return edit tree⟩

/-- Stores the node of a kind, from its first token at `start` to the token read last. -/
def finish (start : Span) (kind : NodeKind) : Builder Ref := do
  let span := start.hull (← previous)
  alloc kind span

mutual

/-- Reads a type. -/
def typeRef (bound : Nat) : Builder Ref :=
  match bound with
  | 0 => exhausted
  | bound + 1 => do
    let start ← here
    let head ← name
    let arguments ← if ← eat .lt then typeArguments bound else pure []
    let rank := Token.rank (← tokens)
    skip (2 * rank)
    let arguments ← allocList arguments
    finish start (.typeRef head arguments (min rank largestRank))

/-- Reads type arguments and the mark that closes them. -/
def typeArguments (bound : Nat) : Builder (List Ref) :=
  match bound with
  | 0 => exhausted
  | bound + 1 => do
    let first ← typeRef bound
    if ← eat .comma then
      return first :: (← typeArguments bound)
    else
      expect .gt
      return [first]

end

/-- Reads a parameter of a lambda, which is a name alone. -/
def lambdaParam : Builder Ref := do
  let start ← here
  let name ← name
  finish start (.param none name)

/-- Reads the parameters of a lambda up to its closing parenthesis. -/
def lambdaParams (bound : Nat) : Builder (List Ref) :=
  match bound with
  | 0 => exhausted
  | bound + 1 => do
    if ← atMark .rparen then
      return []
    let first ← lambdaParam
    if ← eat .comma then
      return first :: (← lambdaParams bound)
    else
      return [first]

/-- Reads the parameters of a method up to its closing parenthesis. -/
def methodParams (bound : Nat) : Builder (List Ref) :=
  match bound with
  | 0 => exhausted
  | bound + 1 => do
    let start ← here
    let type ← typeRef bound
    let name ← name
    let first ← finish start (.param type name)
    if ← eat .comma then
      return first :: (← methodParams bound)
    else
      return [first]

/-- Reads a literal that is one token long. -/
def literal (kind : NodeKind) : Builder Ref := do
  let start ← here
  advance
  finish start kind

mutual

/-- Reads an expression: a lambda, or an assignment and what binds tighter. -/
def expression (bound : Nat) : Builder Ref :=
  match bound with
  | 0 => exhausted
  | bound + 1 => do
    if Token.atLambda (← tokens) then lambda bound else assignment bound

/-- Reads an assignment, whose value may be any expression, or what binds tighter. -/
def assignment (bound : Nat) : Builder Ref :=
  match bound with
  | 0 => exhausted
  | bound + 1 => do
    let start ← here
    let target ← coalesce bound
    match AssignOp.ofLexeme? (← lexeme) with
    | some op =>
      advance
      let value ← expression bound
      finish start (.assign op target value)
    | none => return target

/-- Reads a lambda. -/
def lambda (bound : Nat) : Builder Ref :=
  match bound with
  | 0 => exhausted
  | bound + 1 => do
    let start ← here
    let parenthesized ← eat .lparen
    let params ← if parenthesized then lambdaParams bound else pure [← lambdaParam]
    if parenthesized then expect .rparen
    expect .arrow
    let body ← if ← atMark .lbrace then block bound else expression bound
    let params ← allocList params
    finish start (.lambda params body parenthesized)

/-- Reads a coalescing operation, whose right operand may be another one or a lambda, or what
binds tighter. -/
def coalesce (bound : Nat) : Builder Ref :=
  match bound with
  | 0 => exhausted
  | bound + 1 => do
    let start ← here
    let left ← binary bound (BinaryOp.coalesce.precedence + 1)
    if ← eat .questionQuestion then
      let right ← if Token.atLambda (← tokens) then lambda bound else coalesce bound
      finish start (.binary .coalesce left right)
    else
      return left

/-- Reads operations of one precedence, or what binds tighter. -/
def binary (bound level : Nat) : Builder Ref :=
  match bound with
  | 0 => exhausted
  | bound + 1 => do
    if BinaryOp.tightest < level then
      unary bound
    else
      let start ← here
      let left ← binary bound (level + 1)
      binaryRest bound level start left

/-- Reads the operators of one precedence and their right operands after a left operand. -/
def binaryRest (bound level : Nat) (start : Span) (left : Ref) : Builder Ref :=
  match bound with
  | 0 => exhausted
  | bound + 1 => do
    match BinaryOp.ofLexeme? (← lexeme) with
    | some op =>
      if op.precedence = level then
        advance
        let right ← binary bound (level + 1)
        let operation ← finish start (.binary op left right)
        binaryRest bound level start operation
      else
        return left
    | none => return left

/-- Reads an operand with the operators in front of it. -/
def unary (bound : Nat) : Builder Ref :=
  match bound with
  | 0 => exhausted
  | bound + 1 => do
    match UnaryOp.ofLeadingLexeme? (← lexeme) with
    | some op =>
      let start ← here
      advance
      let operand ← unary bound
      finish start (.unary op operand)
    | none =>
      let start ← here
      let receiver ← primary bound
      postfixRest bound start receiver

/-- Reads what follows a receiver: member accesses, calls, element accesses and the operators
written after their operand. -/
def postfixRest (bound : Nat) (start : Span) (receiver : Ref) : Builder Ref :=
  match bound with
  | 0 => exhausted
  | bound + 1 => do
    match ← lexeme with
    | .mark .dot =>
      advance
      let name ← name
      let access ← finish start (.member receiver name false)
      postfixRest bound start access
    | .mark .questionDot =>
      advance
      let name ← name
      let access ← finish start (.member receiver name true)
      postfixRest bound start access
    | .mark .lparen =>
      advance
      let arguments ← arguments bound
      expect .rparen
      let arguments ← allocList arguments
      let call ← finish start (.invoke receiver arguments)
      postfixRest bound start call
    | .mark .lbracket =>
      advance
      let arguments ← expressions bound
      expect .rbracket
      let arguments ← allocList arguments
      let access ← finish start (.index receiver arguments)
      postfixRest bound start access
    | .mark .plusPlus =>
      advance
      let operation ← finish start (.unary .postInc receiver)
      postfixRest bound start operation
    | .mark .minusMinus =>
      advance
      let operation ← finish start (.unary .postDec receiver)
      postfixRest bound start operation
    | _ => return receiver

/-- Reads the arguments of a call up to its closing parenthesis; a comma may follow the last. -/
def arguments (bound : Nat) : Builder (List Ref) :=
  match bound with
  | 0 => exhausted
  | bound + 1 => do
    if ← atMark .rparen then
      return []
    let start ← here
    let modifier := Modifier.ofLexeme (← lexeme)
    unless modifier = .plain do advance
    let value ← expression bound
    let first ← finish start (.argument modifier value)
    if ← eat .comma then
      return first :: (← arguments bound)
    else
      return [first]

/-- Reads expressions with commas between them. -/
def expressions (bound : Nat) : Builder (List Ref) :=
  match bound with
  | 0 => exhausted
  | bound + 1 => do
    let first ← expression bound
    if ← eat .comma then
      return first :: (← expressions bound)
    else
      return [first]

/-- Reads a literal, a name or an expression in parentheses. -/
def primary (bound : Nat) : Builder Ref :=
  match bound with
  | 0 => exhausted
  | bound + 1 => do
    match ← lexeme with
    | .integer value => literal (.int value)
    | .text contents => literal (.str contents)
    | .keyword .true => literal (.bool true)
    | .keyword .false => literal (.bool false)
    | .keyword .null => literal .null
    | .identifier name => literal (.ident name)
    | .mark .lparen =>
      let start ← here
      advance
      let inner ← expression bound
      expect .rparen
      finish start (.paren inner)
    | _ => refuse .expression

/-- Reads statements in braces. -/
def block (bound : Nat) : Builder Ref :=
  match bound with
  | 0 => exhausted
  | bound + 1 => do
    let start ← here
    expect .lbrace
    let statements ← statements bound
    expect .rbrace
    let statements ← allocList statements
    finish start (.block statements)

/-- Reads statements up to a closing brace or the end of the input. -/
def statements (bound : Nat) : Builder (List Ref) :=
  match bound with
  | 0 => exhausted
  | bound + 1 => do
    match ← lexeme with
    | .mark .rbrace | .endOfInput => return []
    | _ =>
      let first ← statement bound
      return first :: (← statements bound)

/-- Reads a statement. -/
def statement (bound : Nat) : Builder Ref :=
  match bound with
  | 0 => exhausted
  | bound + 1 => do
    let start ← here
    match ← lexeme with
    | .mark .lbrace => block bound
    | .keyword .if =>
      advance
      let condition ← parenthesized bound
      let thenBranch ← statement bound
      let elseBranch ← if ← eatElse then statement bound else pure none
      finish start (.ifStmt condition thenBranch elseBranch)
    | .keyword .while =>
      advance
      let condition ← parenthesized bound
      let body ← statement bound
      finish start (.whileLoop condition body)
    | .keyword .for => forLoop bound
    | .keyword .forEach =>
      advance
      expect .lparen
      let type ← typeRef bound
      let name ← name
      expectKeyword .in
      let collection ← expression bound
      expect .rparen
      let body ← statement bound
      finish start (.forEach type name collection body)
    | .keyword .return =>
      advance
      let value ← optional bound .semi
      expect .semi
      finish start (.returnStmt value)
    | _ =>
      if Token.atLocalDecl (← tokens) then
        let type ← typeRef bound
        let declarators ← declarators bound
        expect .semi
        let declarators ← allocList declarators
        finish start (.localDecl type declarators)
      else
        let expression ← expression bound
        expect .semi
        finish start (.exprStmt expression)

/-- Reads an expression in parentheses, without making a node of them. -/
def parenthesized (bound : Nat) : Builder Ref :=
  match bound with
  | 0 => exhausted
  | bound + 1 => do
    expect .lparen
    let inner ← expression bound
    expect .rparen
    return inner

/-- Reads an expression unless the mark that would end it is in front of the cursor. -/
def optional (bound : Nat) (ending : Mark) : Builder Ref :=
  match bound with
  | 0 => exhausted
  | bound + 1 => do
    if ← atMark ending then return none else expression bound

/-- Reads declared names with commas between them, each with its initial value if it has one. -/
def declarators (bound : Nat) : Builder (List Ref) :=
  match bound with
  | 0 => exhausted
  | bound + 1 => do
    let start ← here
    let name ← name
    let value ← if ← eat .eq then expression bound else pure none
    let first ← finish start (.declarator name value)
    if ← eat .comma then
      return first :: (← declarators bound)
    else
      return [first]

/-- Reads a counted loop: a declaration or expressions, a condition and expressions, each of which
may be absent, and the body. -/
def forLoop (bound : Nat) : Builder Ref :=
  match bound with
  | 0 => exhausted
  | bound + 1 => do
    let start ← here
    expectKeyword .for
    expect .lparen
    let opening ← here
    let (declaration, initializers) ← do
      if Token.atLocalDecl (← tokens) then
        let type ← typeRef bound
        let declarators ← declarators bound
        let declarators ← allocList declarators
        let declaration ← finish opening (.localDecl type declarators)
        pure (declaration, [])
      else if ← atMark .semi then
        pure (none, [])
      else
        pure (none, ← expressions bound)
    expect .semi
    let condition ← optional bound .semi
    expect .semi
    let incrementors ← if ← atMark .rparen then pure [] else expressions bound
    expect .rparen
    let body ← statement bound
    let initializers ← allocList initializers
    let incrementors ← allocList incrementors
    finish start (.forLoop declaration initializers condition incrementors body)

end

/-- Reads a method. -/
def method (bound : Nat) : Builder Ref := do
  let start ← here
  let result ← typeRef bound
  let name ← name
  expect .lparen
  let params ← if ← atMark .rparen then pure [] else methodParams bound
  expect .rparen
  let params ← allocList params
  let body ← block bound
  finish start (.method result name params body)

/-- Reads methods and statements up to the end of the input. -/
def members (bound : Nat) : Builder (List Ref) :=
  match bound with
  | 0 => exhausted
  | bound + 1 => do
    if (← lexeme) == .endOfInput then
      return []
    let first ← if Token.atMethod (← tokens) then method bound else statement bound
    return first :: (← members bound)

/-- Reads a whole unit, which spans the text from its start to its end. -/
def unit (bound : Nat) : Builder Ref := do
  let members ← members bound
  let members ← allocList members
  let stop := (← here).stop
  alloc (.unit members) ⟨0, stop⟩

/-- Reads the tokens of a unit and makes it the root. -/
def program (tokens : List Token) : Builder Unit := do
  setRoot (← unit (unitBound tokens))

end Builder

/-- The tree of a source text, with versions from `clock` on, or the first reason why it has
none. -/
def Tree.parse (clock : Nat) (source : String) : Except Failure Tree := do
  match Token.scan source with
  | .ok tokens =>
    let (((), tree), _) ← ((Builder.program tokens).run (empty clock)).run ⟨tokens, .nowhere⟩
    return tree
  | .error error => throw (.refused error)

end Refactory
