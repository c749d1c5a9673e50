import Refactory.Proofs.Tree.Source

/-!
# The tree of what is read

The parser stores nodes and lists while it reads. What it stores depends on nothing but the program
that it has read, so each of its functions is a reading of a term and, behind it, the edit that
stores this term (`Builder.storing`): a step over the tokens and an edit of the tree do not see each
other, and the edit can wait for the step (`Builder.edit_comm`). A function that goes on behind a
left operand has this one stored already (`Builder.Builds.binaryRest`,
`Builder.Builds.postfixRest`).

So a source text has the tree of its term (`Tree.parse_eq`): the parser stores the nodes of the
program in the order in which the term is stored, and no others.
-/
namespace Refactory

namespace Builder

open Refactory.Parser Refactory.Tree

section

variable {α β γ : Type}

/-- Reading a value, and storing it afterwards. -/
def storing (parser : Parser α) (store : α → Edit β) : Builder β := do
  let value ← (parser : Builder α)
  (store value : Builder β)

@[simp] theorem edit_pure (value : α) : (liftM (pure value : Edit α) : Builder α) = pure value :=
  rfl

@[simp] theorem edit_bind (edit : Edit α) (next : α → Edit β) : (liftM (edit >>= next) : Builder β)
    = (liftM edit : Builder α) >>= fun value => liftM (next value) := rfl

@[simp] theorem parser_pure (value : α) :
    (liftM (pure value : Parser α) : Builder α) = pure value := rfl

@[simp] theorem parser_bind (parser : Parser α) (next : α → Parser β) :
    (liftM (parser >>= next) : Builder β)
      = (liftM parser : Builder α) >>= fun value => liftM (next value) :=
  liftM_bind parser next

@[simp] theorem parser_map (parser : Parser α) (f : α → β) : (liftM (f <$> parser) : Builder β)
    = (liftM parser : Builder α) >>= fun value => pure (f value) := by
  rw [map_eq_pure_bind, parser_bind]
  rfl

/-- An edit can wait for a step over the tokens that comes after it. -/
@[simp] theorem edit_comm (edit : Edit α) (parser : Parser β) (next : α → β → Builder γ) :
    ((liftM edit : Builder α) >>= fun a => (liftM parser : Builder β) >>= fun b => next a b)
      = (liftM parser : Builder β) >>= fun b => (liftM edit : Builder α) >>= fun a => next a b := by
  refine StateT.ext fun tree => ?_
  have runEdit {δ : Type} (edit : Edit δ) (tree : Tree) :
      (liftM edit : Builder δ).run tree = pure (edit.run tree) := rfl
  have runParser {δ : Type} (parser : Parser δ) (tree : Tree) :
      (liftM parser : Builder δ).run tree = parser >>= fun value => pure (value, tree) := rfl
  simp only [StateT.run_bind, runEdit, runParser, pure_bind, bind_assoc]

/-- Where the bound has run out nothing is read or stored. -/
theorem exhausted_eq (store : α → Edit β) :
    (liftM (exhausted : Parser β) : Builder β) = storing exhausted store := rfl

/-- What was stored before is lost where the bound runs out. -/
theorem edit_exhausted (edit : Edit α) (store : β → Edit γ) :
    ((liftM edit : Builder α) >>= fun _ => liftM (exhausted : Parser γ))
      = storing exhausted store := rfl

@[simp] theorem refuse_bind (wanted : Expectation) (next : α → Builder β) :
    ((liftM (refuse wanted : Parser α) : Builder α) >>= next)
      = liftM (refuse wanted : Parser β) := rfl

/-- A run of a step that reads and then stores. -/
theorem run_storing (parser : Parser α) (store : α → Edit β) (tree : Tree) (cursor : Cursor) :
    ((storing parser store).run tree).run cursor
      = (fun (value, cursor) => ((store value).run tree, cursor)) <$> parser.run cursor := by
  change (do
    let (value, cursor) ← (parser.run cursor >>= fun read => pure ((read.1, tree), read.2) :
      Except Failure ((α × Tree) × Cursor))
    pure ((store value.1).run value.2, cursor)) = _
  rw [bind_assoc, map_eq_pure_bind]
  rfl

end

@[simp] theorem finish_eq (start : Span) (kind : NodeKind) : finish start kind
    = (liftM previous : Builder Span) >>= fun last => liftM (alloc kind (start.hull last)) := rfl

@[simp] theorem finish_term (start : Span) (form : Term.Form Span) : Parser.finish start form
    = previous >>= fun last => pure (.node (start.hull last) form) := rfl

@[simp] theorem store_node (span : Span) (form : Term.Form Span) :
    store (.node span form) = storeForm form >>= fun kind => alloc kind span := by
  rw [store]

/-! ### Types, parameters and literals -/

theorem types_eq (bound : Nat) : Builder.typeRef bound = storing (Parser.typeRef bound) store ∧
    Builder.typeArguments bound = storing (Parser.typeArguments bound) storeAll := by
  induction bound with
  | zero => exact ⟨exhausted_eq store, exhausted_eq storeAll⟩
  | succ bound ih =>
    obtain ⟨typeRef, typeArguments⟩ := ih
    constructor
    · rw [Builder.typeRef, Parser.typeRef]
      simp only [storing, parser_bind, bind_assoc]
      refine bind_congr fun start => bind_congr fun head => bind_congr fun more => ?_
      cases more <;> simp [-bind_pure_comp, typeArguments, storing, storeForm, storeAll]
    · rw [Builder.typeArguments, Parser.typeArguments]
      simp only [typeRef, storing, parser_bind, bind_assoc, edit_comm]
      refine bind_congr fun first => bind_congr fun more => ?_
      cases more <;> simp [-bind_pure_comp, typeArguments, storing, storeAll]

theorem typeRef_eq (bound : Nat) : Builder.typeRef bound = storing (Parser.typeRef bound) store :=
  (types_eq bound).1

theorem lambdaParam_eq : Builder.lambdaParam = storing Parser.lambdaParam store := by
  simp [Builder.lambdaParam, Parser.lambdaParam, storing, storeForm, storeSome]

theorem lambdaParams_eq (bound : Nat) :
    Builder.lambdaParams bound = storing (Parser.lambdaParams bound) storeAll := by
  induction bound with
  | zero => exact exhausted_eq storeAll
  | succ bound ih =>
    rw [Builder.lambdaParams, Parser.lambdaParams]
    simp only [lambdaParam_eq, storing, parser_bind, bind_assoc]
    refine bind_congr fun closes => ?_
    cases closes
    · simp only [Bool.false_eq_true, if_false, parser_bind, bind_assoc, edit_comm]
      refine bind_congr fun first => bind_congr fun more => ?_
      cases more <;> simp [-bind_pure_comp, ih, storing, storeAll]
    · simp [storeAll]

theorem methodParams_eq (bound : Nat) :
    Builder.methodParams bound = storing (Parser.methodParams bound) storeAll := by
  induction bound with
  | zero => exact exhausted_eq storeAll
  | succ bound ih =>
    rw [Builder.methodParams, Parser.methodParams]
    simp only [typeRef_eq, storing, parser_bind, bind_assoc, finish_eq, finish_term, edit_comm,
      pure_bind]
    refine bind_congr fun start => bind_congr fun type => bind_congr fun name =>
      bind_congr fun last => bind_congr fun more => ?_
    cases more <;> simp [-bind_pure_comp, ih, storing, storeForm, storeSome, storeAll]

theorem literal_eq {kind : NodeKind} {form : Term.Form Span} (same : storeForm form = pure kind) :
    Builder.literal kind = storing (Parser.literal form) store := by
  simp [Builder.literal, Parser.literal, storing, same]

/-! ### Expressions and statements -/

/-- Within a bound on the depth, the functions of the grammar store what they read. -/
structure Builds (bound : Nat) : Prop where
  expression : Builder.expression bound = storing (Parser.expression bound) store
  assignment : Builder.assignment bound = storing (Parser.assignment bound) store
  lambda : Builder.lambda bound = storing (Parser.lambda bound) store
  coalesce : Builder.coalesce bound = storing (Parser.coalesce bound) store
  binary (level : Nat) :
    Builder.binary bound level = storing (Parser.binary bound level) store
  /-- The left operand is stored first. -/
  binaryRest (level : Nat) (start : Span) (left : SourceTerm) :
    storing (Parser.binaryRest bound level start left) store
      = (liftM (store left) : Builder Ref) >>= fun ref => Builder.binaryRest bound level start ref
  unary : Builder.unary bound = storing (Parser.unary bound) store
  /-- The receiver is stored first. -/
  postfixRest (start : Span) (receiver : SourceTerm) :
    storing (Parser.postfixRest bound start receiver) store
      = (liftM (store receiver) : Builder Ref) >>= fun ref => Builder.postfixRest bound start ref
  arguments : Builder.arguments bound = storing (Parser.arguments bound) storeAll
  expressions : Builder.expressions bound = storing (Parser.expressions bound) storeAll
  primary : Builder.primary bound = storing (Parser.primary bound) store
  block : Builder.block bound = storing (Parser.block bound) store
  statements : Builder.statements bound = storing (Parser.statements bound) storeAll
  statement : Builder.statement bound = storing (Parser.statement bound) store
  parenthesized : Builder.parenthesized bound = storing (Parser.parenthesized bound) store
  optional (ending : Mark) :
    Builder.optional bound ending = storing (Parser.optional bound ending) storeSome
  declarators : Builder.declarators bound = storing (Parser.declarators bound) storeAll
  forLoop : Builder.forLoop bound = storing (Parser.forLoop bound) store

section

variable {bound : Nat} (builds : Builds bound)

include builds

theorem expression_succ :
    Builder.expression (bound + 1) = storing (Parser.expression (bound + 1)) store := by
  rw [Builder.expression, Parser.expression]
  simp only [storing, parser_bind, bind_assoc]
  refine bind_congr fun tokens => ?_
  cases Token.atLambda tokens
  · exact builds.assignment
  · exact builds.lambda

theorem assignment_succ :
    Builder.assignment (bound + 1) = storing (Parser.assignment (bound + 1)) store := by
  rw [Builder.assignment, Parser.assignment]
  simp only [builds.coalesce, storing, parser_bind, bind_assoc, edit_comm]
  refine bind_congr fun start => bind_congr fun target => bind_congr fun lexeme => ?_
  cases AssignOp.ofLexeme? lexeme with
  | none => simp
  | some op => simp [-bind_pure_comp, builds.expression, storing, storeForm, storeSome]

theorem lambda_succ :
    Builder.lambda (bound + 1) = storing (Parser.lambda (bound + 1)) store := by
  rw [Builder.lambda, Parser.lambda]
  simp only [storing, parser_bind, bind_assoc]
  refine bind_congr fun start => bind_congr fun parenthesized => ?_
  cases parenthesized
  · simp only [Bool.false_eq_true, if_false, lambdaParam_eq, storing, parser_bind, bind_assoc,
      pure_bind, edit_comm]
    refine bind_congr fun param => bind_congr fun _ => bind_congr fun atBlock => ?_
    cases atBlock <;> simp [-bind_pure_comp, builds.expression, builds.block, storing, storeForm,
      storeSome, storeAll]
  · simp only [if_true, lambdaParams_eq, storing, parser_bind, bind_assoc, edit_comm]
    refine bind_congr fun params => bind_congr fun _ => bind_congr fun _ =>
      bind_congr fun atBlock => ?_
    cases atBlock <;> simp [-bind_pure_comp, builds.expression, builds.block, storing, storeForm,
      storeSome]

theorem coalesce_succ :
    Builder.coalesce (bound + 1) = storing (Parser.coalesce (bound + 1)) store := by
  rw [Builder.coalesce, Parser.coalesce]
  simp only [builds.binary, storing, parser_bind, bind_assoc, edit_comm]
  refine bind_congr fun start => bind_congr fun left => bind_congr fun more => ?_
  cases more
  · simp
  · simp only [if_true, parser_bind, bind_assoc, edit_comm]
    refine bind_congr fun tokens => ?_
    cases Token.atLambda tokens <;>
      simp [-bind_pure_comp, builds.lambda, builds.coalesce, storing, storeForm, storeSome]

theorem binary_succ (level : Nat) :
    Builder.binary (bound + 1) level = storing (Parser.binary (bound + 1) level) store := by
  have rest (start : Span) (left : SourceTerm) := builds.binaryRest level start left
  simp only [storing] at rest
  rw [Builder.binary, Parser.binary]
  split
  · exact builds.unary
  · simp only [builds.binary, storing, parser_bind, bind_assoc, rest]

theorem binaryRest_succ (level : Nat) (start : Span) (left : SourceTerm) :
    storing (Parser.binaryRest (bound + 1) level start left) store = (liftM (store left) :
      Builder Ref) >>= fun ref => Builder.binaryRest (bound + 1) level start ref := by
  have rest (left : SourceTerm) := builds.binaryRest level start left
  simp only [storing] at rest
  simp only [Builder.binaryRest, Parser.binaryRest, storing, parser_bind, bind_assoc, edit_comm]
  refine bind_congr fun lexeme => ?_
  cases BinaryOp.ofLexeme? lexeme with
  | none => simp
  | some op =>
    dsimp only
    split
    · simp [-bind_pure_comp, builds.binary, rest, storing, storeForm, storeSome]
    · simp

theorem unary_succ : Builder.unary (bound + 1) = storing (Parser.unary (bound + 1)) store := by
  have rest (start : Span) (receiver : SourceTerm) := builds.postfixRest start receiver
  simp only [storing] at rest
  simp only [Builder.unary, Parser.unary, storing, parser_bind, bind_assoc]
  refine bind_congr fun lexeme => ?_
  cases UnaryOp.ofLeadingLexeme? lexeme with
  | none => simp [-bind_pure_comp, builds.primary, storing, rest]
  | some op => simp [-bind_pure_comp, builds.unary, storing, storeForm, storeSome]

theorem postfixRest_succ (start : Span) (receiver : SourceTerm) :
    storing (Parser.postfixRest (bound + 1) start receiver) store = (liftM (store receiver) :
      Builder Ref) >>= fun ref => Builder.postfixRest (bound + 1) start ref := by
  have rest (receiver : SourceTerm) := builds.postfixRest start receiver
  simp only [storing] at rest
  simp only [Builder.postfixRest, Parser.postfixRest, storing, parser_bind, bind_assoc, edit_comm]
  refine bind_congr fun lexeme => ?_
  split <;> simp [-bind_pure_comp, builds.arguments, builds.expressions, rest, storing, storeForm,
    storeSome]

theorem arguments_succ :
    Builder.arguments (bound + 1) = storing (Parser.arguments (bound + 1)) storeAll := by
  simp only [Builder.arguments, Parser.arguments, builds.expression, storing, parser_bind,
    bind_assoc]
  refine bind_congr fun closes => ?_
  cases closes
  · simp only [Bool.false_eq_true, if_false, parser_bind, bind_assoc]
    refine bind_congr fun start => bind_congr fun lexeme => ?_
    split
    all_goals
      simp only [parser_bind, bind_assoc, finish_eq, finish_term, edit_comm, pure_bind]
    · refine bind_congr fun value => bind_congr fun last => bind_congr fun more => ?_
      cases more <;>
        simp [-bind_pure_comp, builds.arguments, storing, storeForm, storeSome, storeAll]
    · refine bind_congr fun _ => bind_congr fun value => bind_congr fun last =>
        bind_congr fun more => ?_
      cases more <;>
        simp [-bind_pure_comp, builds.arguments, storing, storeForm, storeSome, storeAll]
  · simp [storeAll]

theorem expressions_succ :
    Builder.expressions (bound + 1) = storing (Parser.expressions (bound + 1)) storeAll := by
  simp only [Builder.expressions, Parser.expressions, builds.expression, storing, parser_bind,
    bind_assoc, edit_comm]
  refine bind_congr fun first => bind_congr fun more => ?_
  cases more <;> simp [-bind_pure_comp, builds.expressions, storing, storeAll]

theorem primary_succ :
    Builder.primary (bound + 1) = storing (Parser.primary (bound + 1)) store := by
  simp only [Builder.primary, Parser.primary, storing, parser_bind, bind_assoc]
  refine bind_congr fun lexeme => ?_
  split
  case h_7 => simp [-bind_pure_comp, builds.expression, storing, storeForm, storeSome]
  case h_8 => simp
  all_goals
    refine literal_eq ?_
    rw [storeForm]

theorem block_succ : Builder.block (bound + 1) = storing (Parser.block (bound + 1)) store := by
  simp [-bind_pure_comp, Builder.block, Parser.block, builds.statements, storing, storeForm]

theorem statements_succ :
    Builder.statements (bound + 1) = storing (Parser.statements (bound + 1)) storeAll := by
  simp only [Builder.statements, Parser.statements, storing, parser_bind, bind_assoc]
  refine bind_congr fun lexeme => ?_
  split <;> simp [-bind_pure_comp, builds.statement, builds.statements, storing, storeAll]

theorem parenthesized_succ :
    Builder.parenthesized (bound + 1) = storing (Parser.parenthesized (bound + 1)) store := by
  simp [-bind_pure_comp, Builder.parenthesized, Parser.parenthesized, builds.expression, storing]

theorem optional_succ (ending : Mark) :
    Builder.optional (bound + 1) ending =
    storing (Parser.optional (bound + 1) ending) storeSome := by
  simp only [Builder.optional, Parser.optional, storing, parser_bind, bind_assoc]
  refine bind_congr fun ends => ?_
  cases ends <;> simp [-bind_pure_comp, builds.expression, storing, storeSome]

theorem declarators_succ :
    Builder.declarators (bound + 1) = storing (Parser.declarators (bound + 1)) storeAll := by
  simp only [Builder.declarators, Parser.declarators, builds.expression, storing, parser_bind,
    bind_assoc]
  refine bind_congr fun start => bind_congr fun name => bind_congr fun hasValue => ?_
  cases hasValue
  all_goals
    simp only [Bool.false_eq_true, if_false, if_true, parser_bind, parser_map, finish_eq,
      finish_term, bind_assoc, pure_bind, edit_comm]
  · refine bind_congr fun last => bind_congr fun more => ?_
    cases more <;>
      simp [-bind_pure_comp, builds.declarators, storing, storeForm, storeSome, storeAll]
  · refine bind_congr fun value => bind_congr fun last => bind_congr fun more => ?_
    cases more <;>
      simp [-bind_pure_comp, builds.declarators, storing, storeForm, storeSome, storeAll]

theorem forLoop_succ :
    Builder.forLoop (bound + 1) = storing (Parser.forLoop (bound + 1)) store := by
  simp only [Builder.forLoop, Parser.forLoop, builds.optional, storing, parser_bind, bind_assoc]
  refine bind_congr fun start => bind_congr fun _ => bind_congr fun _ => bind_congr fun opening =>
    bind_congr fun tokens => ?_
  -- What comes after the semicolon is the same in each case, but what is stored before it is not.
  cases Token.atLocalDecl tokens
  · simp only [Bool.false_eq_true, if_false, parser_bind, bind_assoc]
    refine bind_congr fun isEmpty => ?_
    cases isEmpty
    · simp only [Bool.false_eq_true, if_false, builds.expressions, storing, parser_bind,
        bind_assoc, pure_bind, edit_comm]
      refine bind_congr fun initializers => bind_congr fun _ => bind_congr fun condition =>
        bind_congr fun _ => bind_congr fun isLast => ?_
      cases isLast <;>
        simp [-bind_pure_comp, builds.statement, storing, storeForm, storeSome, storeAll]
    · simp only [if_true, parser_bind, bind_assoc, pure_bind, edit_comm]
      refine bind_congr fun _ => bind_congr fun condition => bind_congr fun _ =>
        bind_congr fun isLast => ?_
      cases isLast <;> simp [-bind_pure_comp, builds.expressions, builds.statement, storing,
        storeForm, storeSome, storeAll]
  · simp only [if_true, typeRef_eq, builds.declarators, storing, parser_bind, finish_eq,
      finish_term, bind_assoc, pure_bind, edit_comm]
    refine bind_congr fun type => bind_congr fun declarators => bind_congr fun last =>
      bind_congr fun _ => bind_congr fun condition => bind_congr fun _ =>
        bind_congr fun isLast => ?_
    cases isLast <;> simp [-bind_pure_comp, builds.expressions, builds.statement, storing,
      storeForm, storeSome, storeAll]

theorem statement_succ :
    Builder.statement (bound + 1) = storing (Parser.statement (bound + 1)) store := by
  simp only [Builder.statement, Parser.statement, storing, parser_bind, bind_assoc]
  refine bind_congr fun start => bind_congr fun lexeme => ?_
  split
  -- A block, a conditional statement, a counted loop, and what starts with no keyword.
  case h_1 => exact builds.block
  case h_2 =>
    simp only [builds.parenthesized, builds.statement, storing, parser_bind, bind_assoc, edit_comm]
    refine bind_congr fun _ => bind_congr fun condition => bind_congr fun thenBranch =>
      bind_congr fun more => ?_
    cases more <;> simp [-bind_pure_comp, storeForm, storeSome]
  case h_4 => exact builds.forLoop
  case h_7 =>
    simp only [parser_bind, bind_assoc]
    refine bind_congr fun tokens => ?_
    cases Token.atLocalDecl tokens <;> simp [-bind_pure_comp, typeRef_eq, builds.expression,
      builds.declarators, storing, storeForm, storeSome]
  all_goals simp [-bind_pure_comp, typeRef_eq, builds.parenthesized, builds.expression,
    builds.statement, builds.optional, storing, storeForm, storeSome]

end

/-- The functions of the grammar store what they read. -/
theorem builds (bound : Nat) : Builds bound := by
  induction bound with
  | zero =>
    constructor
    case binaryRest => exact fun _ _ _ => (edit_exhausted _ _).symm
    case postfixRest => exact fun _ _ => (edit_exhausted _ _).symm
    all_goals first | exact exhausted_eq _ | exact fun _ => exhausted_eq _
  | succ bound ih =>
    exact {
      expression := expression_succ ih
      assignment := assignment_succ ih
      lambda := lambda_succ ih
      coalesce := coalesce_succ ih
      binary := binary_succ ih
      binaryRest := binaryRest_succ ih
      unary := unary_succ ih
      postfixRest := postfixRest_succ ih
      arguments := arguments_succ ih
      expressions := expressions_succ ih
      primary := primary_succ ih
      block := block_succ ih
      statements := statements_succ ih
      statement := statement_succ ih
      parenthesized := parenthesized_succ ih
      optional := optional_succ ih
      declarators := declarators_succ ih
      forLoop := forLoop_succ ih }

/-! ### Units -/

theorem method_eq (bound : Nat) :
    Builder.method bound = storing (Parser.method bound) store := by
  simp only [Builder.method, Parser.method, typeRef_eq, methodParams_eq, (builds bound).block,
    storing, parser_bind, bind_assoc, edit_comm]
  refine bind_congr fun start => bind_congr fun result => bind_congr fun name =>
    bind_congr fun _ => bind_congr fun closes => ?_
  cases closes <;> simp [-bind_pure_comp, storeForm, storeSome, storeAll]

theorem members_eq (bound : Nat) :
    Builder.members bound = storing (Parser.members bound) storeAll := by
  induction bound with
  | zero => exact exhausted_eq storeAll
  | succ bound ih =>
    simp only [Builder.members, Parser.members, storing, parser_bind, bind_assoc]
    refine bind_congr fun lexeme => ?_
    split
    · simp [storeAll]
    · simp only [parser_bind, bind_assoc]
      refine bind_congr fun tokens => ?_
      cases Token.atMethod tokens <;>
        simp [-bind_pure_comp, method_eq, (builds bound).statement, ih, storing, storeAll]

theorem unit_eq (bound : Nat) : Builder.unit bound = storing (Parser.unit bound) store := by
  simp [-bind_pure_comp, Builder.unit, Parser.unit, members_eq, storing, storeForm]

theorem program_eq (tokens : List Token) : Builder.program tokens
    = storing (Parser.unit (unitBound tokens)) fun term => store term >>= setRoot := by
  simp [-bind_pure_comp, Builder.program, unit_eq, storing]

end Builder

/-- A source text has the tree of its term, or none where it has no term. -/
theorem Tree.parse_eq (clock : Nat) (source : String) :
    Tree.parse clock source = ofTerm clock <$> SourceTerm.parse source := by
  rw [Tree.parse, SourceTerm.parse]
  cases Token.scan source with
  | error error => rfl
  | ok tokens =>
    dsimp only
    rw [Builder.program_eq, Builder.run_storing, SourceTerm.ofTokens]
    cases (Parser.unit (Parser.unitBound tokens)).run ⟨tokens, .nowhere⟩ <;> rfl

end Refactory
