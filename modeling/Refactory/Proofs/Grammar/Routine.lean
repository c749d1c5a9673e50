import Refactory.Proofs.Grammar.Plan

/-!
# The routines of the grammar

Each function of the grammar is the run of a plan, in which its calls stand open (`Routine.plan`): a
routine with some bound does what its plan does when the calls in it are performed with the bound
that is left (`Routine.perform_eq`). The bound stands for nothing but the depth of the calls, so
that what the plans say of calls they say of the grammar itself.
-/
namespace Refactory

open Plan (lift ask run_bind run_lift run_ask run_pure run_ite run_map)

open Refactory.Parser
(here lexeme tokens advance skip atMark eat eatElse expect expectKeyword refuse
  finish literal largestRank)

/-- The functions of the grammar that stand within a routine. Those that continue what has started
elsewhere are given where that was. -/
inductive Clause where
  /-- A parameter of a lambda. -/
  | lambdaParam
  /-- A primary expression and what follows it. -/
  | access
  | argument
  | ifStmt (start : Span)
  | forEach (start : Span)
  /-- A local declaration. Only one that is a statement is terminated. -/
  | localDecl (start : Span) (terminated : Bool)

/-- What a clause does, with its calls left open. -/
def Clause.plan : Clause → Plan SourceTerm
  | lambdaParam => lift Parser.lambdaParam
  | access => do
    let start ← lift here
    let receiver ← ask .primary ()
    ask .postfixRest (start, receiver)
  | argument => do
    let start ← lift here
    let modifier := Modifier.ofLexeme (← lift lexeme)
    unless modifier = .plain do lift advance
    let value ← ask .expression ()
    lift (finish start (.argument modifier value))
  | ifStmt start => do
    lift advance
    let condition ← ask .parenthesized ()
    let thenBranch ← ask .statement ()
    let elseBranch ← if ← lift eatElse then some <$> ask .statement () else pure none
    lift (finish start (.ifStmt condition thenBranch elseBranch))
  | forEach start => do
    lift advance
    lift (expect .lparen)
    let type ← ask .typeRef ()
    let name ← lift Parser.name
    lift (expectKeyword .in)
    let collection ← ask .expression ()
    lift (expect .rparen)
    let body ← ask .statement ()
    lift (finish start (.forEach type name collection body))
  | localDecl start terminated => do
    let type ← ask .typeRef ()
    let declarators ← ask .declarators ()
    if terminated then lift (expect .semi)
    lift (finish start (.localDecl type declarators))

namespace Routine

/-- What each routine does, with its calls left open. -/
def plan : (routine : Routine) → routine.Input → Plan routine.Output
  | typeRef, () => do
    let start ← lift here
    let head ← lift Parser.name
    let arguments ← if ← lift (eat .lt) then ask typeArguments () else pure []
    let rank := Token.rank (← lift tokens)
    lift (skip (2 * rank))
    lift (finish start (.typeRef head arguments (min rank largestRank)))
  | typeArguments, () => do
    let first ← ask typeRef ()
    if ← lift (eat .comma) then
      return first :: (← ask typeArguments ())
    else
      lift (expect .gt)
      return [first]
  | lambdaParams, () => do
    if ← lift (atMark .rparen) then
      return []
    let first ← Clause.lambdaParam.plan
    if ← lift (eat .comma) then
      return first :: (← ask lambdaParams ())
    else
      return [first]
  | methodParams, () => do
    let start ← lift here
    let type ← ask typeRef ()
    let name ← lift Parser.name
    let first ← lift (finish start (.param (some type) name))
    if ← lift (eat .comma) then
      return first :: (← ask methodParams ())
    else
      return [first]
  | expression, () => do
    if Token.atLambda (← lift tokens) then ask lambda () else ask assignment ()
  | assignment, () => do
    let start ← lift here
    let target ← ask coalesce ()
    match AssignOp.ofLexeme? (← lift lexeme) with
    | some op =>
      lift advance
      let value ← ask expression ()
      lift (finish start (.assign op target value))
    | none => return target
  | lambda, () => do
    let start ← lift here
    let parenthesized ← lift (eat .lparen)
    let params ← if parenthesized then ask lambdaParams () else pure [← Clause.lambdaParam.plan]
    if parenthesized then lift (expect .rparen)
    lift (expect .arrow)
    let body ← if ← lift (atMark .lbrace) then ask block () else ask expression ()
    lift (finish start (.lambda params body parenthesized))
  | coalesce, () => do
    let start ← lift here
    let left ← ask (binary (BinaryOp.coalesce.precedence + 1)) ()
    if ← lift (eat .questionQuestion) then
      let right ← if Token.atLambda (← lift tokens) then ask lambda () else ask coalesce ()
      lift (finish start (.binary .coalesce left right))
    else
      return left
  | binary level, () => do
    if BinaryOp.tightest < level then
      ask unary ()
    else
      let start ← lift here
      let left ← ask (binary (level + 1)) ()
      ask (binaryRest level) (start, left)
  | binaryRest level, (start, left) => do
    match BinaryOp.ofLexeme? (← lift lexeme) with
    | some op =>
      if op.precedence = level then
        lift advance
        let right ← ask (binary (level + 1)) ()
        let operation ← lift (finish start (.binary op left right))
        ask (binaryRest level) (start, operation)
      else
        return left
    | none => return left
  | unary, () => do
    match UnaryOp.ofLeadingLexeme? (← lift lexeme) with
    | some op =>
      let start ← lift here
      lift advance
      let operand ← ask unary ()
      lift (finish start (.unary op operand))
    | none => Clause.access.plan
  | postfixRest, (start, receiver) => do
    match ← lift lexeme with
    | .mark .dot =>
      lift advance
      let name ← lift Parser.name
      let access ← lift (finish start (.member receiver name false))
      ask postfixRest (start, access)
    | .mark .questionDot =>
      lift advance
      let name ← lift Parser.name
      let access ← lift (finish start (.member receiver name true))
      ask postfixRest (start, access)
    | .mark .lparen =>
      lift advance
      let arguments ← ask arguments ()
      lift (expect .rparen)
      let call ← lift (finish start (.invoke receiver arguments))
      ask postfixRest (start, call)
    | .mark .lbracket =>
      lift advance
      let arguments ← ask expressions ()
      lift (expect .rbracket)
      let access ← lift (finish start (.index receiver arguments))
      ask postfixRest (start, access)
    | .mark .plusPlus =>
      lift advance
      let operation ← lift (finish start (.unary .postInc receiver))
      ask postfixRest (start, operation)
    | .mark .minusMinus =>
      lift advance
      let operation ← lift (finish start (.unary .postDec receiver))
      ask postfixRest (start, operation)
    | _ => return receiver
  | arguments, () => do
    if ← lift (atMark .rparen) then
      return []
    let first ← Clause.argument.plan
    if ← lift (eat .comma) then
      return first :: (← ask arguments ())
    else
      return [first]
  | expressions, () => do
    let first ← ask expression ()
    if ← lift (eat .comma) then
      return first :: (← ask expressions ())
    else
      return [first]
  | primary, () => do
    match ← lift lexeme with
    | .integer value => lift (literal (.int value))
    | .text contents => lift (literal (.str contents))
    | .keyword .true => lift (literal (.bool true))
    | .keyword .false => lift (literal (.bool false))
    | .keyword .null => lift (literal .null)
    | .identifier name => lift (literal (.ident name))
    | .mark .lparen =>
      let start ← lift here
      lift advance
      let inner ← ask expression ()
      lift (expect .rparen)
      lift (finish start (.paren inner))
    | _ => lift (refuse .expression)
  | block, () => do
    let start ← lift here
    lift (expect .lbrace)
    let statements ← ask statements ()
    lift (expect .rbrace)
    lift (finish start (.block statements))
  | statements, () => do
    match ← lift lexeme with
    | .mark .rbrace | .endOfInput => return []
    | _ =>
      let first ← ask statement ()
      return first :: (← ask statements ())
  | statement, () => do
    let start ← lift here
    match ← lift lexeme with
    | .mark .lbrace => ask block ()
    | .keyword .if => (Clause.ifStmt start).plan
    | .keyword .while =>
      lift advance
      let condition ← ask parenthesized ()
      let body ← ask statement ()
      lift (finish start (.whileLoop condition body))
    | .keyword .for => ask forLoop ()
    | .keyword .forEach => (Clause.forEach start).plan
    | .keyword .return =>
      lift advance
      let value ← ask optional .semi
      lift (expect .semi)
      lift (finish start (.returnStmt value))
    | _ =>
      if Token.atLocalDecl (← lift tokens) then
        (Clause.localDecl start true).plan
      else
        let expression ← ask expression ()
        lift (expect .semi)
        lift (finish start (.exprStmt expression))
  | parenthesized, () => do
    lift (expect .lparen)
    let inner ← ask expression ()
    lift (expect .rparen)
    return inner
  | optional, ending => do
    if ← lift (atMark ending) then return none else some <$> ask expression ()
  | declarators, () => do
    let start ← lift here
    let name ← lift Parser.name
    let value ← if ← lift (eat .eq) then some <$> ask expression () else pure none
    let first ← lift (finish start (.declarator name value))
    if ← lift (eat .comma) then
      return first :: (← ask declarators ())
    else
      return [first]
  | forLoop, () => do
    let start ← lift here
    lift (expectKeyword .for)
    lift (expect .lparen)
    let opening ← lift here
    let (declaration, initializers) ← do
      if Token.atLocalDecl (← lift tokens) then
        pure (some (← (Clause.localDecl opening false).plan), [])
      else if ← lift (atMark .semi) then
        pure (none, [])
      else
        pure (none, ← ask expressions ())
    lift (expect .semi)
    let condition ← ask optional .semi
    lift (expect .semi)
    let incrementors ← if ← lift (atMark .rparen) then pure [] else ask expressions ()
    lift (expect .rparen)
    let body ← ask statement ()
    lift (finish start (.forLoop declaration initializers condition incrementors body))
  | method, () => do
    let start ← lift here
    let result ← ask typeRef ()
    let name ← lift Parser.name
    lift (expect .lparen)
    let params ← if ← lift (atMark .rparen) then pure [] else ask methodParams ()
    lift (expect .rparen)
    let body ← ask block ()
    lift (finish start (.method result name params body))
  | members, () => do
    if (← lift lexeme) == .endOfInput then
      return []
    let first ← if Token.atMethod (← lift tokens) then ask method () else ask statement ()
    return first :: (← ask members ())
  | unit, () => do
    let members ← ask members ()
    return .node ⟨0, (← lift here).stop⟩ (.unit members)

/-- How the functions of the grammar perform with a bound. -/
def perform (bound : Nat) : Performance
  | typeRef, () => Parser.typeRef bound
  | typeArguments, () => Parser.typeArguments bound
  | lambdaParams, () => Parser.lambdaParams bound
  | methodParams, () => Parser.methodParams bound
  | expression, () => Parser.expression bound
  | assignment, () => Parser.assignment bound
  | lambda, () => Parser.lambda bound
  | coalesce, () => Parser.coalesce bound
  | binary level, () => Parser.binary bound level
  | binaryRest level, (start, left) => Parser.binaryRest bound level start left
  | unary, () => Parser.unary bound
  | postfixRest, (start, receiver) => Parser.postfixRest bound start receiver
  | arguments, () => Parser.arguments bound
  | expressions, () => Parser.expressions bound
  | primary, () => Parser.primary bound
  | block, () => Parser.block bound
  | statements, () => Parser.statements bound
  | statement, () => Parser.statement bound
  | parenthesized, () => Parser.parenthesized bound
  | optional, ending => Parser.optional bound ending
  | declarators, () => Parser.declarators bound
  | forLoop, () => Parser.forLoop bound
  | method, () => Parser.method bound
  | members, () => Parser.members bound
  | unit, () => Parser.unit bound

/-- What a routine takes of its bound before it calls others. A method and a unit take nothing. -/
def cost : Routine → Nat
  | method | unit => 0
  | _ => 1

section

variable (bound : Nat)

/-- A routine does what its plan does, with the calls in it performed within the bound that is
left. -/
theorem perform_eq (routine : Routine) (input : routine.Input) :
    perform (bound + routine.cost) routine input = (routine.plan input).run (perform bound) := by
  -- Running a plan goes through sequences and tests; where a plan looks at the lexeme in front, the
  -- cases of both sides are taken together.
  cases routine <;> simp only [perform, cost, plan, Clause.plan, Nat.add_zero, Parser.typeRef,
    Parser.typeArguments, Parser.lambdaParams, Parser.methodParams, Parser.expression,
    Parser.assignment, Parser.lambda, Parser.coalesce, Parser.binary, Parser.binaryRest,
    Parser.unary, Parser.postfixRest, Parser.arguments, Parser.expressions, Parser.primary,
    Parser.block, Parser.statements, Parser.statement, Parser.parenthesized, Parser.optional,
    Parser.declarators, Parser.forLoop, Parser.method, Parser.members, Parser.unit,
    run_bind, run_lift, run_ask, run_pure, run_ite, run_map]
  case assignment =>
    refine bind_congr fun start => bind_congr fun target => bind_congr fun next => ?_
    cases AssignOp.ofLexeme? next <;> simp only [perform, run_bind, run_lift, run_ask, run_pure]
  case binaryRest level =>
    refine bind_congr fun next => ?_
    cases BinaryOp.ofLexeme? next <;>
      simp only [perform, run_bind, run_lift, run_ask, run_pure, run_ite]
  case unary =>
    refine bind_congr fun next => ?_
    cases UnaryOp.ofLeadingLexeme? next <;> simp only [perform, run_bind, run_lift, run_ask]
  case postfixRest =>
    refine bind_congr fun next => ?_
    split <;> simp only [perform, run_bind, run_lift, run_ask, run_pure]
  case primary =>
    refine bind_congr fun next => ?_
    split <;> simp only [perform, run_bind, run_lift, run_ask]
  case statements =>
    refine bind_congr fun next => ?_
    split <;> simp only [perform, run_bind, run_ask, run_pure]
  case statement =>
    refine bind_congr fun start => bind_congr fun next => ?_
    split <;> simp only [perform, run_bind, run_lift, run_ask, run_pure, run_ite, run_map, if_true]
  case arguments =>
    refine bind_congr fun ended => ?_
    simp only [bind_assoc]
    split
    · rfl
    · refine bind_congr fun start => bind_congr fun next => ?_
      split <;> simp only [bind_assoc]
  case forLoop => simp only [bind_assoc, Bool.false_eq_true, if_false]

end

end Routine

end Refactory
