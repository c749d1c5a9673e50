import Refactory.Grammar.Builder
import Refactory.Term

/-!
# The grammar without a tree

The functions of the grammar as they read terms: each takes the same steps over the tokens as the
one of its name in `Builder`, and gives the node that it reads with everything below it instead of
storing it. What a program is read as can be said of these terms by recursion over them; that the
tree holds the same is the theorem `Tree.parse_eq`.
-/
namespace Refactory

/-- A program as it is read: each node with its span. -/
abbrev SourceTerm := Term Span

namespace Parser

/-- The node of a kind, from its first token at `start` to the token read last. -/
def finish (start : Span) (kind : Term.Form Span) : Parser SourceTerm :=
  return .node (start.hull (← get).previous) kind

mutual

/-- Reads a type. -/
def typeRef (bound : Nat) : Parser SourceTerm :=
  match bound with
  | 0 => exhausted
  | bound + 1 => do
    let start ← here
    let head ← name
    let arguments ← if ← eat .lt then typeArguments bound else pure []
    let rank := Token.rank (← tokens)
    skip (2 * rank)
    finish start (.typeRef head arguments (min rank largestRank))

/-- Reads type arguments and the mark that closes them. -/
def typeArguments (bound : Nat) : Parser (List SourceTerm) :=
  match bound with
  | 0 => exhausted
  | bound + 1 => do
    let first ← typeRef bound
    if ← eat .comma then
      return first :: (← typeArguments bound)
    else
      expect .gt
      return [first]

end

/-- Reads a parameter of a lambda, which is a name alone. -/
def lambdaParam : Parser SourceTerm := do
  let start ← here
  let name ← name
  finish start (.param none name)

/-- Reads the parameters of a lambda up to its closing parenthesis. -/
def lambdaParams (bound : Nat) : Parser (List SourceTerm) :=
  match bound with
  | 0 => exhausted
  | bound + 1 => do
    if ← atMark .rparen then
      return []
    let first ← lambdaParam
    if ← eat .comma then
      return first :: (← lambdaParams bound)
    else
      return [first]

/-- Reads the parameters of a method up to its closing parenthesis. -/
def methodParams (bound : Nat) : Parser (List SourceTerm) :=
  match bound with
  | 0 => exhausted
  | bound + 1 => do
    let start ← here
    let type ← typeRef bound
    let name ← name
    let first ← finish start (.param (some type) name)
    if ← eat .comma then
      return first :: (← methodParams bound)
    else
      return [first]

/-- Reads a literal that is one token long. -/
def literal (kind : Term.Form Span) : Parser SourceTerm := do
  let start ← here
  advance
  finish start kind

mutual

/-- Reads an expression: a lambda, or an assignment and what binds tighter. -/
def expression (bound : Nat) : Parser SourceTerm :=
  match bound with
  | 0 => exhausted
  | bound + 1 => do
    if Token.atLambda (← tokens) then lambda bound else assignment bound

/-- Reads an assignment, whose value may be any expression, or what binds tighter. -/
def assignment (bound : Nat) : Parser SourceTerm :=
  match bound with
  | 0 => exhausted
  | bound + 1 => do
    let start ← here
    let target ← coalesce bound
    match AssignOp.ofLexeme? (← lexeme) with
    | some op =>
      advance
      let value ← expression bound
      finish start (.assign op target value)
    | none => return target

/-- Reads a lambda. -/
def lambda (bound : Nat) : Parser SourceTerm :=
  match bound with
  | 0 => exhausted
  | bound + 1 => do
    let start ← here
    let parenthesized ← eat .lparen
    let params ← if parenthesized then lambdaParams bound else pure [← lambdaParam]
    if parenthesized then expect .rparen
    expect .arrow
    let body ← if ← atMark .lbrace then block bound else expression bound
    finish start (.lambda params body parenthesized)

/-- Reads a coalescing operation, whose right operand may be another one or a lambda, or what
binds tighter. -/
def coalesce (bound : Nat) : Parser SourceTerm :=
  match bound with
  | 0 => exhausted
  | bound + 1 => do
    let start ← here
    let left ← binary bound (BinaryOp.coalesce.precedence + 1)
    if ← eat .questionQuestion then
      let right ← if Token.atLambda (← tokens) then lambda bound else coalesce bound
      finish start (.binary .coalesce left right)
    else
      return left

/-- Reads operations of one precedence, or what binds tighter. -/
def binary (bound level : Nat) : Parser SourceTerm :=
  match bound with
  | 0 => exhausted
  | bound + 1 => do
    if BinaryOp.tightest < level then
      unary bound
    else
      let start ← here
      let left ← binary bound (level + 1)
      binaryRest bound level start left

/-- Reads the operators of one precedence and their right operands after a left operand. -/
def binaryRest (bound level : Nat) (start : Span) (left : SourceTerm) : Parser SourceTerm :=
  match bound with
  | 0 => exhausted
  | bound + 1 => do
    match BinaryOp.ofLexeme? (← lexeme) with
    | some op =>
      if op.precedence = level then
        advance
        let right ← binary bound (level + 1)
        let operation ← finish start (.binary op left right)
        binaryRest bound level start operation
      else
        return left
    | none => return left

/-- Reads an operand with the operators in front of it. -/
def unary (bound : Nat) : Parser SourceTerm :=
  match bound with
  | 0 => exhausted
  | bound + 1 => do
    match UnaryOp.ofLeadingLexeme? (← lexeme) with
    | some op =>
      let start ← here
      advance
      let operand ← unary bound
      finish start (.unary op operand)
    | none =>
      let start ← here
      let receiver ← primary bound
      postfixRest bound start receiver

/-- Reads what follows a receiver: member accesses, calls, element accesses and the operators
written after their operand. -/
def postfixRest (bound : Nat) (start : Span) (receiver : SourceTerm) : Parser SourceTerm :=
  match bound with
  | 0 => exhausted
  | bound + 1 => do
    match ← lexeme with
    | .mark .dot =>
      advance
      let name ← name
      let access ← finish start (.member receiver name false)
      postfixRest bound start access
    | .mark .questionDot =>
      advance
      let name ← name
      let access ← finish start (.member receiver name true)
      postfixRest bound start access
    | .mark .lparen =>
      advance
      let arguments ← arguments bound
      expect .rparen
      let call ← finish start (.invoke receiver arguments)
      postfixRest bound start call
    | .mark .lbracket =>
      advance
      let arguments ← expressions bound
      expect .rbracket
      let access ← finish start (.index receiver arguments)
      postfixRest bound start access
    | .mark .plusPlus =>
      advance
      let operation ← finish start (.unary .postInc receiver)
      postfixRest bound start operation
    | .mark .minusMinus =>
      advance
      let operation ← finish start (.unary .postDec receiver)
      postfixRest bound start operation
    | _ => return receiver

/-- Reads the arguments of a call up to its closing parenthesis; a comma may follow the last. -/
def arguments (bound : Nat) : Parser (List SourceTerm) :=
  match bound with
  | 0 => exhausted
  | bound + 1 => do
    if ← atMark .rparen then
      return []
    let start ← here
    let modifier := Modifier.ofLexeme (← lexeme)
    unless modifier = .plain do advance
    let value ← expression bound
    let first ← finish start (.argument modifier value)
    if ← eat .comma then
      return first :: (← arguments bound)
    else
      return [first]

/-- Reads expressions with commas between them. -/
def expressions (bound : Nat) : Parser (List SourceTerm) :=
  match bound with
  | 0 => exhausted
  | bound + 1 => do
    let first ← expression bound
    if ← eat .comma then
      return first :: (← expressions bound)
    else
      return [first]

/-- Reads a literal, a name or an expression in parentheses. -/
def primary (bound : Nat) : Parser SourceTerm :=
  match bound with
  | 0 => exhausted
  | bound + 1 => do
    match ← lexeme with
    | .integer value => literal (.int value)
    | .text contents => literal (.str contents)
    | .keyword .true => literal (.bool true)
    | .keyword .false => literal (.bool false)
    | .keyword .null => literal .null
    | .identifier name => literal (.ident name)
    | .mark .lparen =>
      let start ← here
      advance
      let inner ← expression bound
      expect .rparen
      finish start (.paren inner)
    | _ => refuse .expression

/-- Reads statements in braces. -/
def block (bound : Nat) : Parser SourceTerm :=
  match bound with
  | 0 => exhausted
  | bound + 1 => do
    let start ← here
    expect .lbrace
    let statements ← statements bound
    expect .rbrace
    finish start (.block statements)

/-- Reads statements up to a closing brace or the end of the input. -/
def statements (bound : Nat) : Parser (List SourceTerm) :=
  match bound with
  | 0 => exhausted
  | bound + 1 => do
    match ← lexeme with
    | .mark .rbrace | .endOfInput => return []
    | _ =>
      let first ← statement bound
      return first :: (← statements bound)

/-- Reads a statement. -/
def statement (bound : Nat) : Parser SourceTerm :=
  match bound with
  | 0 => exhausted
  | bound + 1 => do
    let start ← here
    match ← lexeme with
    | .mark .lbrace => block bound
    | .keyword .if =>
      advance
      let condition ← parenthesized bound
      let thenBranch ← statement bound
      let elseBranch ← if ← eatElse then some <$> statement bound else pure none
      finish start (.ifStmt condition thenBranch elseBranch)
    | .keyword .while =>
      advance
      let condition ← parenthesized bound
      let body ← statement bound
      finish start (.whileLoop condition body)
    | .keyword .for => forLoop bound
    | .keyword .forEach =>
      advance
      expect .lparen
      let type ← typeRef bound
      let name ← name
      expectKeyword .in
      let collection ← expression bound
      expect .rparen
      let body ← statement bound
      finish start (.forEach type name collection body)
    | .keyword .return =>
      advance
      let value ← optional bound .semi
      expect .semi
      finish start (.returnStmt value)
    | _ =>
      if Token.atLocalDecl (← tokens) then
        let type ← typeRef bound
        let declarators ← declarators bound
        expect .semi
        finish start (.localDecl type declarators)
      else
        let expression ← expression bound
        expect .semi
        finish start (.exprStmt expression)

/-- Reads an expression in parentheses, without making a node of them. -/
def parenthesized (bound : Nat) : Parser SourceTerm :=
  match bound with
  | 0 => exhausted
  | bound + 1 => do
    expect .lparen
    let inner ← expression bound
    expect .rparen
    return inner

/-- Reads an expression unless the mark that would end it is in front of the cursor. -/
def optional (bound : Nat) (ending : Mark) : Parser (Option SourceTerm) :=
  match bound with
  | 0 => exhausted
  | bound + 1 => do
    if ← atMark ending then return none else some <$> expression bound

/-- Reads declared names with commas between them, each with its initial value if it has one. -/
def declarators (bound : Nat) : Parser (List SourceTerm) :=
  match bound with
  | 0 => exhausted
  | bound + 1 => do
    let start ← here
    let name ← name
    let value ← if ← eat .eq then some <$> expression bound else pure none
    let first ← finish start (.declarator name value)
    if ← eat .comma then
      return first :: (← declarators bound)
    else
      return [first]

/-- Reads a counted loop: a declaration or expressions, a condition and expressions, each of which
may be absent, and the body. -/
def forLoop (bound : Nat) : Parser SourceTerm :=
  match bound with
  | 0 => exhausted
  | bound + 1 => do
    let start ← here
    expectKeyword .for
    expect .lparen
    let opening ← here
    let (declaration, initializers) ← do
      if Token.atLocalDecl (← tokens) then
        let type ← typeRef bound
        let declarators ← declarators bound
        let declaration ← finish opening (.localDecl type declarators)
        pure (some declaration, [])
      else if ← atMark .semi then
        pure (none, [])
      else
        pure (none, ← expressions bound)
    expect .semi
    let condition ← optional bound .semi
    expect .semi
    let incrementors ← if ← atMark .rparen then pure [] else expressions bound
    expect .rparen
    let body ← statement bound
    finish start (.forLoop declaration initializers condition incrementors body)

end

/-- Reads a method. -/
def method (bound : Nat) : Parser SourceTerm := do
  let start ← here
  let result ← typeRef bound
  let name ← name
  expect .lparen
  let params ← if ← atMark .rparen then pure [] else methodParams bound
  expect .rparen
  let body ← block bound
  finish start (.method result name params body)

/-- Reads methods and statements up to the end of the input. -/
def members (bound : Nat) : Parser (List SourceTerm) :=
  match bound with
  | 0 => exhausted
  | bound + 1 => do
    if (← lexeme) == .endOfInput then
      return []
    let first ← if Token.atMethod (← tokens) then method bound else statement bound
    return first :: (← members bound)

/-- Reads a whole unit, which spans the text from its start to its end. -/
def unit (bound : Nat) : Parser SourceTerm := do
  let members ← members bound
  return .node ⟨0, (← here).stop⟩ (.unit members)

end Parser

namespace SourceTerm

/-- Reads the tokens of a unit. -/
def ofTokens (tokens : List Token) : Except Failure SourceTerm :=
  (·.1) <$> (Parser.unit (Parser.unitBound tokens)).run ⟨tokens, .nowhere⟩

/-- The term of a source text, or the first reason why it has none. -/
def parse (source : String) : Except Failure SourceTerm := do
  match Token.scan source with
  | .ok tokens => ofTokens tokens
  | .error error => throw (.refused error)

end SourceTerm

end Refactory
