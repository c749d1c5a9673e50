import Refactory.Proofs.Grammar.Occupation
import Refactory.Proofs.Token.Location

/-!
# The extent of what is read

Every function of the grammar returns nodes that take the tokens it has passed, in order and without
any left over (`Parser.Extends`). So the members of a unit take all tokens before the end of the
input (`SourceTerm.exists_fills_of_ofTokens`).
-/
namespace Refactory

open Refactory.Part

variable {origin : Cursor} {term : SourceTerm}

namespace Parser

open Cursor (Since)
open Yields

/-- Reading types and type arguments. -/
theorem yields_types (bound : Nat) :
    (∀ cursor, YieldsNode cursor cursor (typeRef bound)) ∧
    (∀ cursor, Yields cursor cursor (typeArguments bound) fun terms parts =>
      ∃ inner, Commas false terms inner ∧ parts = inner ++ [sign .gt]) := by
  induction bound with
  | zero => exact ⟨fun _ => .exhausted, fun _ => .exhausted⟩
  | succ bound ih =>
    constructor
    · intro origin
      rw [typeRef]
      refine bind_here (bind_name (.refl origin) fun text cursor since => ?_)
      have finishing {cursor : Cursor} {arguments : List SourceTerm} {list : List Part}
          (since : origin.Since (.name text :: list) cursor)
          (inside : arguments = [] ∧ list = [] ∨
            ∃ inner, Commas false arguments inner ∧ list = sign .lt :: inner ++ [sign .gt]) :
          YieldsNode origin cursor (do
            let rank := Token.rank (← Parser.tokens)
            skip (2 * rank)
            finish origin.span (.typeRef text arguments (min rank largestRank))) :=
        bind_tokens <| bind_rank since fun cursor since =>
          .finish since (by simp) ⟨list, _, inside, rfl, rfl⟩
      refine bind_eat since (fun cursor since => ?_) (finishing since (.inl ⟨rfl, rfl⟩))
      refine Yields.bind since (ih.2 cursor) fun arguments _ cursor inside since => ?_
      obtain ⟨inner, commas, rfl⟩ := inside
      exact finishing (by simpa using since) (.inr ⟨inner, commas, rfl⟩)
    · intro origin
      rw [typeArguments]
      refine bind_node (.refl origin) (ih.1 origin) fun first cursor since => ?_
      refine bind_eat since (fun cursor since => ?_) ?_
      · refine Yields.bind since (ih.2 cursor) fun others _ cursor inside since => ?_
        obtain ⟨inner, commas, rfl⟩ := inside
        exact .pure since ⟨_, commas.more first, by simp⟩
      · exact bind_expect since fun cursor since => .pure since ⟨_, .last first, rfl⟩

theorem yields_typeRef (bound : Nat) (cursor : Cursor) : YieldsNode cursor cursor (typeRef bound) :=
  (yields_types bound).1 cursor

/-- Reading a parameter of a lambda. -/
theorem yields_lambdaParam (origin : Cursor) : YieldsNode origin origin lambdaParam :=
  bind_here <| bind_name (.refl origin) fun _ _ since => .finish since (by simp) rfl

/-- Reading the parameters of a lambda. -/
theorem yields_lambdaParams (bound : Nat) (origin : Cursor) :
    Yields origin origin (lambdaParams bound) (Commas true) := by
  induction bound generalizing origin with
  | zero => exact .exhausted
  | succ bound ih =>
    rw [lambdaParams]
    refine bind_atMark ?_
    split
    · exact .pure (.refl origin) (.none rfl)
    · refine bind_node (.refl origin) (yields_lambdaParam origin) fun first cursor since => ?_
      refine bind_eat since (fun cursor since => ?_) (.pure since (.last first))
      refine Yields.bind since (ih cursor) fun others _ cursor commas since => ?_
      exact .pure since (by simpa using commas.more first)

/-- Reading the parameters of a method. -/
theorem yields_methodParams (bound : Nat) (origin : Cursor) :
    Yields origin origin (methodParams bound) (Commas false) := by
  induction bound generalizing origin with
  | zero => exact .exhausted
  | succ bound ih =>
    rw [methodParams]
    refine bind_here
      (bind_node (.refl origin) (yields_typeRef bound origin) fun type cursor since => ?_)
    refine bind_name since fun text cursor since => ?_
    refine bind_finish since (by simp) rfl fun first since => ?_
    refine bind_eat since (fun cursor since => ?_) (.pure since (.last first))
    refine Yields.bind since (ih cursor) fun others _ cursor commas since => ?_
    exact .pure since (by simpa using commas.more first)

/-- A literal takes the token in front. -/
theorem yields_literal {form : Term.Form Span} {lexeme : Lexeme} (front : origin.lexeme = lexeme)
    (more : lexeme ≠ .endOfInput) (written : IsWritten form [.own lexeme]) :
    YieldsNode origin origin (literal form) :=
  bind_here <| bind_advance (.refl origin) front more fun _ since => .finish since (by simp) written

/-- What every function of the grammar returns takes the tokens that it passes. -/
structure Extends (bound : Nat) : Prop where
  /-- Expressions. -/
  expression : ∀ origin, YieldsNode origin origin (expression bound)
  /-- Assignments. -/
  assignment : ∀ origin, YieldsNode origin origin (assignment bound)
  /-- Lambdas. -/
  lambda : ∀ origin, YieldsNode origin origin (lambda bound)
  /-- Coalescing operations. -/
  coalesce : ∀ origin, YieldsNode origin origin (coalesce bound)
  /-- Binary operations. -/
  binary : ∀ level origin, YieldsNode origin origin (binary bound level)
  /-- Right operands, after a left one that starts at the origin. -/
  binaryRest : ∀ level left origin cursor, origin.Since [.node left] cursor →
    YieldsNode origin cursor (binaryRest bound level origin.span left)
  /-- Operations with the operator in front. -/
  unary : ∀ origin, YieldsNode origin origin (unary bound)
  /-- What follows a receiver that starts at the origin. -/
  postfixRest : ∀ receiver origin cursor, origin.Since [.node receiver] cursor →
    YieldsNode origin cursor (postfixRest bound origin.span receiver)
  /-- Arguments. -/
  arguments : ∀ origin, Yields origin origin (arguments bound) (Commas true)
  /-- Lists of expressions. -/
  expressions : ∀ origin, Yields origin origin (expressions bound) (Commas false)
  /-- Primaries. -/
  primary : ∀ origin, YieldsNode origin origin (primary bound)
  /-- Blocks. -/
  block : ∀ origin, YieldsNode origin origin (block bound)
  /-- Lists of statements. -/
  statements : ∀ origin, Yields origin origin (statements bound) fun terms parts =>
    parts = terms.map .node
  /-- Statements. -/
  statement : ∀ origin, YieldsNode origin origin (statement bound)
  /-- Headers. -/
  parenthesized : ∀ origin, Yields origin origin (parenthesized bound) fun term parts =>
    parts = [sign .lparen, .node term, sign .rparen]
  /-- Optional expressions. -/
  optional : ∀ ending origin, Yields origin origin (optional bound ending) fun term parts =>
    parts = child term
  /-- Declared variables. -/
  declarators : ∀ origin, Yields origin origin (declarators bound) (Commas false)
  /-- Counted loops. -/
  forLoop : ∀ origin, YieldsNode origin origin (forLoop bound)

namespace Extends

variable {bound : Nat}

theorem zero : Extends 0 := by
  constructor <;> intros <;> exact .exhausted

/-- The lexeme of a modifier that is not plain. -/
theorem lexemes_ofLexeme {lexeme : Lexeme} (keyword : Modifier.ofLexeme lexeme ≠ .plain) :
    (Modifier.ofLexeme lexeme).lexemes = [lexeme] ∧ lexeme ≠ .endOfInput := by
  unfold Modifier.ofLexeme at keyword ⊢
  split at keyword
  · exact ⟨rfl, by simp⟩
  · exact ⟨rfl, by simp⟩
  · exact ⟨rfl, by simp⟩
  · exact absurd rfl keyword

variable (walks : Extends bound)

include walks

theorem expression_succ (origin : Cursor) :
    YieldsNode origin origin (Parser.expression (bound + 1)) := by
  rw [Parser.expression]
  refine bind_tokens ?_
  split
  · exact walks.lambda origin
  · exact walks.assignment origin

theorem assignment_succ (origin : Cursor) :
    YieldsNode origin origin (Parser.assignment (bound + 1)) := by
  rw [Parser.assignment]
  refine bind_here (bind_node (.refl origin) (walks.coalesce origin) fun target cursor since => ?_)
  refine bind_lexeme ?_
  split
  · rename_i op isOp
    refine bind_advance since (AssignOp.ofLexeme?_eq_some.1 isOp) (by simp) fun cursor since => ?_
    refine bind_node since (walks.expression cursor) fun value cursor since => ?_
    exact .finish since (by simp) rfl
  · exact .pure since rfl

theorem lambda_succ (origin : Cursor) :
    YieldsNode origin origin (Parser.lambda (bound + 1)) := by
  rw [Parser.lambda]
  refine bind_here ?_
  have finishing {cursor : Cursor} {params : List SourceTerm} {parenthesized : Bool}
      {list : List Part}
      (since : origin.Since list cursor)
      (header : parenthesized = true ∧
          (∃ inner, Commas true params inner ∧ list = sign .lparen :: inner ++ [sign .rparen]) ∨
        parenthesized = false ∧ ∃ param, params = [param] ∧ list = [.node param]) :
      YieldsNode origin cursor (do
        expect .arrow
        let body ← if ← atMark .lbrace then Parser.block bound else Parser.expression bound
        finish origin.span (.lambda params (some body) parenthesized)) := by
    refine bind_expect since fun cursor since => bind_atMark ?_
    split
    · refine bind_node since (walks.block cursor) fun body cursor since => ?_
      exact .finish since (by simp) ⟨list, header, by simp [child]⟩
    · refine bind_node since (walks.expression cursor) fun body cursor since => ?_
      exact .finish since (by simp) ⟨list, header, by simp [child]⟩
  refine bind_eat (.refl origin) (fun cursor since => ?_) ?_
  · refine Yields.bind since (yields_lambdaParams bound cursor)
      fun params inner cursor commas since => ?_
    refine bind_expect since fun cursor since => ?_
    exact finishing since (.inl ⟨rfl, inner, commas, rfl⟩)
  · refine bind_node (.refl origin) (yields_lambdaParam origin) fun param cursor since => ?_
    exact finishing since (.inr ⟨rfl, param, rfl, rfl⟩)

theorem coalesce_succ (origin : Cursor) :
    YieldsNode origin origin (Parser.coalesce (bound + 1)) := by
  rw [Parser.coalesce]
  refine bind_here (bind_node (.refl origin) (walks.binary _ origin) fun left cursor since => ?_)
  refine bind_eat since (fun cursor since => bind_tokens ?_) (.pure since rfl)
  split
  · refine bind_node since (walks.lambda cursor) fun right cursor since => ?_
    exact .finish since (by simp) rfl
  · refine bind_node since (walks.coalesce cursor) fun right cursor since => ?_
    exact .finish since (by simp) rfl

theorem binary_succ (level : Nat) (origin : Cursor) :
    YieldsNode origin origin (Parser.binary (bound + 1) level) := by
  rw [Parser.binary]
  split
  · exact walks.unary origin
  · refine bind_here (bind_node (.refl origin) (walks.binary (level + 1) origin) ?_)
    exact fun left cursor since => walks.binaryRest level left origin cursor since

theorem binaryRest_succ {level : Nat} {left : SourceTerm} {cursor : Cursor}
    (since : origin.Since [.node left] cursor) :
    YieldsNode origin cursor (Parser.binaryRest (bound + 1) level origin.span left) := by
  rw [Parser.binaryRest]
  refine bind_lexeme ?_
  split
  · rename_i op isOp
    split
    · refine bind_advance since (BinaryOp.ofLexeme?_eq_some.1 isOp) (by simp) fun cursor since => ?_
      refine bind_node since (walks.binary (level + 1) cursor) fun right cursor since => ?_
      refine bind_finish since (by simp) rfl fun operation since => ?_
      exact walks.binaryRest level operation origin cursor since
    · exact .pure since rfl
  · exact .pure since rfl

theorem unary_succ (origin : Cursor) :
    YieldsNode origin origin (Parser.unary (bound + 1)) := by
  rw [Parser.unary]
  refine bind_lexeme ?_
  split
  · rename_i op isOp
    obtain ⟨same, isPrefix⟩ := UnaryOp.ofLeadingLexeme?_eq_some.1 isOp
    refine bind_here (bind_advance (.refl origin) same (by simp) fun cursor since => ?_)
    refine bind_node since (walks.unary cursor) fun operand cursor since => ?_
    exact .finish since (by simp) (by simp [IsWritten, isPrefix, sign, child])
  · refine bind_here (bind_node (.refl origin) (walks.primary origin) ?_)
    exact fun receiver cursor since => walks.postfixRest receiver origin cursor since

theorem postfixRest_succ {receiver : SourceTerm} {cursor : Cursor}
    (since : origin.Since [.node receiver] cursor) :
    YieldsNode origin cursor (Parser.postfixRest (bound + 1) origin.span receiver) := by
  have extend {form : Term.Form Span} {parts : List Part} {cursor : Cursor}
      (since : origin.Since parts cursor)
      (some : parts ≠ []) (written : IsWritten form parts) : YieldsNode origin cursor (do
        let further ← finish origin.span form
        Parser.postfixRest bound origin.span further) :=
    bind_finish since some written fun further since =>
      walks.postfixRest further origin cursor since
  rw [Parser.postfixRest]
  refine bind_lexeme ?_
  split
  · refine bind_advance since ‹_› (by simp) fun cursor since => ?_
    exact bind_name since fun text cursor since => extend since (by simp) rfl
  · refine bind_advance since ‹_› (by simp) fun cursor since => ?_
    exact bind_name since fun text cursor since => extend since (by simp) rfl
  · refine bind_advance since ‹_› (by simp) fun cursor since => ?_
    refine Yields.bind since (walks.arguments cursor) fun arguments list cursor commas since => ?_
    refine bind_expect since fun cursor since => ?_
    exact extend since (by simp) ⟨list, commas, by simp [child, sign]⟩
  · refine bind_advance since ‹_› (by simp) fun cursor since => ?_
    refine Yields.bind since (walks.expressions cursor) fun arguments list cursor commas since => ?_
    refine bind_expect since fun cursor since => ?_
    exact extend since (by simp) ⟨list, commas, by simp [child, sign]⟩
  · exact bind_advance since ‹_› (by simp) fun cursor since => extend since (by simp) rfl
  · exact bind_advance since ‹_› (by simp) fun cursor since => extend since (by simp) rfl
  · exact .pure since rfl

theorem arguments_succ (origin : Cursor) :
    Yields origin origin (Parser.arguments (bound + 1)) (Commas true) := by
  rw [Parser.arguments]
  refine bind_atMark ?_
  split
  · exact .pure (.refl origin) (.none rfl)
  · refine bind_here (bind_lexeme ?_)
    have finishing {cursor : Cursor} {modifier : Modifier}
        (since : origin.Since (modifier.lexemes.map .own) cursor) : Yields origin cursor (do
          let value ← Parser.expression bound
          let first ← finish origin.span (.argument modifier (some value))
          if ← eat .comma then
            return first :: (← Parser.arguments bound)
          else
            return [first]) (Commas true) := by
      refine bind_node since (walks.expression cursor) fun value cursor since => ?_
      refine bind_finish since (by simp) rfl fun first since => ?_
      refine bind_eat since (fun cursor since => ?_) (.pure since (.last first))
      refine Yields.bind since (walks.arguments cursor) fun others _ cursor commas since => ?_
      exact .pure since (by simpa using commas.more first)
    dsimp only
    split
    · rename_i plain
      exact finishing (by simpa [plain, Modifier.lexemes] using Since.refl origin)
    · rename_i keyword
      obtain ⟨spelled, more⟩ := lexemes_ofLexeme keyword
      refine bind_advance (.refl origin) rfl more fun cursor since => ?_
      exact finishing (by simpa [spelled] using since)

theorem expressions_succ (origin : Cursor) :
    Yields origin origin (Parser.expressions (bound + 1)) (Commas false) := by
  rw [Parser.expressions]
  refine bind_node (.refl origin) (walks.expression origin) fun first cursor since => ?_
  refine bind_eat since (fun cursor since => ?_) (.pure since (.last first))
  refine Yields.bind since (walks.expressions cursor) fun others _ cursor commas since => ?_
  exact .pure since (by simpa using commas.more first)

theorem primary_succ (origin : Cursor) :
    YieldsNode origin origin (Parser.primary (bound + 1)) := by
  rw [Parser.primary]
  refine bind_lexeme ?_
  split
  · exact yields_literal ‹_› (by simp) ⟨_, rfl, rfl⟩
  · exact yields_literal ‹_› (by simp) rfl
  · exact yields_literal ‹_› (by simp) rfl
  · exact yields_literal ‹_› (by simp) rfl
  · exact yields_literal ‹_› (by simp) rfl
  · exact yields_literal ‹_› (by simp) rfl
  · refine bind_here (bind_advance (.refl origin) ‹_› (by simp) fun cursor since => ?_)
    refine bind_node since (walks.expression cursor) fun inner cursor since => ?_
    exact bind_expect since fun cursor since => .finish since (by simp) rfl
  · exact .refuse

theorem block_succ (origin : Cursor) :
    YieldsNode origin origin (Parser.block (bound + 1)) := by
  rw [Parser.block]
  refine bind_here (bind_expect (.refl origin) fun cursor since => ?_)
  refine Yields.bind since (walks.statements cursor) fun statements _ cursor inside since => ?_
  subst inside
  exact bind_expect since fun cursor since => .finish since (by simp) rfl

theorem statements_succ (origin : Cursor) :
    Yields origin origin (Parser.statements (bound + 1)) fun terms parts =>
    parts = terms.map .node := by
  rw [Parser.statements]
  refine bind_lexeme ?_
  split
  · exact .pure (.refl origin) rfl
  · exact .pure (.refl origin) rfl
  · refine bind_node (.refl origin) (walks.statement origin) fun first cursor since => ?_
    refine Yields.bind since (walks.statements cursor) fun others _ cursor inside since => ?_
    subst inside
    exact .pure since rfl

theorem parenthesized_succ (origin : Cursor) :
    Yields origin origin (Parser.parenthesized (bound + 1)) fun term parts =>
      parts = [sign .lparen, .node term, sign .rparen] := by
  rw [Parser.parenthesized]
  refine bind_expect (.refl origin) fun cursor since => ?_
  refine bind_node since (walks.expression cursor) fun inner cursor since => ?_
  exact bind_expect since fun cursor since => .pure since rfl

theorem optional_succ (ending : Mark) (origin : Cursor) :
    Yields origin origin (Parser.optional (bound + 1) ending) fun term parts =>
    parts = child term := by
  rw [Parser.optional]
  refine bind_atMark ?_
  split
  · exact .pure (.refl origin) rfl
  · exact .map_node (walks.expression origin) fun term => rfl

theorem declarators_succ (origin : Cursor) :
    Yields origin origin (Parser.declarators (bound + 1)) (Commas false) := by
  rw [Parser.declarators]
  refine bind_here (bind_name (.refl origin) fun text cursor since => ?_)
  have finishing {cursor : Cursor} {value : Option SourceTerm}
      (since : origin.Since (.name text :: led (sign .eq) value) cursor) : Yields origin cursor (do
        let first ← finish origin.span (.declarator text value)
        if ← eat .comma then
          return first :: (← Parser.declarators bound)
        else
          return [first]) (Commas false) := by
    refine bind_finish since (by simp) rfl fun first since => ?_
    refine bind_eat since (fun cursor since => ?_) (.pure since (.last first))
    refine Yields.bind since (walks.declarators cursor) fun others _ cursor commas since => ?_
    exact .pure since (by simpa using commas.more first)
  refine bind_eat since (fun cursor since => ?_) (finishing since)
  refine bind_map_node since (walks.expression cursor) fun value cursor since => ?_
  exact finishing since

theorem forLoop_succ (origin : Cursor) :
    YieldsNode origin origin (Parser.forLoop (bound + 1)) := by
  rw [Parser.forLoop]
  refine bind_here (bind_expectKeyword (.refl origin) fun cursor since => ?_)
  refine bind_expect since fun opening since => bind_here (bind_tokens ?_)
  have finishing {cursor : Cursor} {declaration : Option SourceTerm}
      {initializers : List SourceTerm}
      {first : List Part} (listed : Listed initializers first)
      (since : origin.Since (word .for :: sign .lparen :: child declaration ++ first) cursor) :
      YieldsNode origin cursor (do
        expect .semi
        let condition ← Parser.optional bound .semi
        expect .semi
        let incrementors ← if ← atMark .rparen then pure [] else Parser.expressions bound
        expect .rparen
        let body ← Parser.statement bound
        finish origin.span
          (.forLoop declaration initializers condition incrementors (some body))) := by
    refine bind_expect since fun cursor since => ?_
    refine Yields.bind since (walks.optional .semi cursor) fun condition _ cursor inside since => ?_
    subst inside
    refine bind_expect since fun cursor since => bind_atMark ?_
    have closing {cursor : Cursor} {incrementors : List SourceTerm} {last : List Part}
        (steps : Listed incrementors last)
        (since : origin.Since (word .for :: sign .lparen :: child declaration ++ first ++
          [sign .semi] ++ child condition ++ [sign .semi] ++ last) cursor) :
        YieldsNode origin cursor (do
          expect .rparen
          let body ← Parser.statement bound
          finish origin.span
            (.forLoop declaration initializers condition incrementors (some body))) := by
      refine bind_expect since fun cursor since => ?_
      refine bind_node since (walks.statement cursor) fun body cursor since => ?_
      exact .finish since (by simp) ⟨first, last, listed, steps, by simp [child]⟩
    split
    · exact closing (.inl ⟨rfl, rfl⟩) (by simpa using since)
    · refine Yields.bind since (walks.expressions cursor)
        fun incrementors last cursor commas since => ?_
      exact closing (.inr commas) since
  split
  · -- The declaration starts behind the parenthesis, not where the loop does.
    refine bind_behind (yields_typeRef bound opening) fun type _ middle isType declared => ?_
    subst isType
    refine bind_behind (walks.declarators middle) fun declarators list cursor commas further => ?_
    refine bind_finish_behind since (declared.trans further) (by simp) ⟨list, commas, .inl rfl⟩
      fun declaration since => ?_
    rw [pure_bind]
    exact finishing (.inl ⟨rfl, rfl⟩) since
  · refine bind_atMark ?_
    split
    · exact finishing (.inl ⟨rfl, rfl⟩) since
    · refine Yields.bind since (walks.expressions opening)
        fun initializers list cursor commas since => ?_
      exact finishing (.inr commas) since

theorem statement_succ (origin : Cursor) :
    YieldsNode origin origin (Parser.statement (bound + 1)) := by
  rw [Parser.statement]
  refine bind_here (bind_lexeme ?_)
  split
  · exact walks.block origin
  · refine bind_advance (.refl origin) ‹_› (by simp) fun cursor since => ?_
    refine Yields.bind since (walks.parenthesized cursor) fun condition _ cursor inside since => ?_
    subst inside
    refine bind_node since (walks.statement cursor) fun thenBranch cursor since => ?_
    refine bind_eatElse since (fun cursor since => ?_) (.finish since (by simp) rfl)
    refine bind_map_node since (walks.statement cursor) fun elseBranch cursor since => ?_
    exact .finish since (by simp) rfl
  · refine bind_advance (.refl origin) ‹_› (by simp) fun cursor since => ?_
    refine Yields.bind since (walks.parenthesized cursor) fun condition _ cursor inside since => ?_
    subst inside
    refine bind_node since (walks.statement cursor) fun body cursor since => ?_
    exact .finish since (by simp) rfl
  · exact walks.forLoop origin
  · refine bind_advance (.refl origin) ‹_› (by simp) fun cursor since => ?_
    refine bind_expect since fun cursor since => ?_
    refine bind_node since (yields_typeRef bound cursor) fun type cursor since => ?_
    refine bind_name since fun text cursor since => ?_
    refine bind_expectKeyword since fun cursor since => ?_
    refine bind_node since (walks.expression cursor) fun collection cursor since => ?_
    refine bind_expect since fun cursor since => ?_
    refine bind_node since (walks.statement cursor) fun body cursor since => ?_
    exact .finish since (by simp) rfl
  · refine bind_advance (.refl origin) ‹_› (by simp) fun cursor since => ?_
    refine Yields.bind since (walks.optional .semi cursor) fun value _ cursor inside since => ?_
    subst inside
    exact bind_expect since fun cursor since => .finish since (by simp) (by simp [IsWritten, word])
  · refine bind_tokens ?_
    split
    · refine bind_node (.refl origin) (yields_typeRef bound origin) fun type cursor since => ?_
      refine Yields.bind since (walks.declarators cursor)
        fun declarators list cursor commas since => ?_
      refine bind_expect since fun cursor since => ?_
      exact .finish since (by simp) ⟨list, commas, .inr rfl⟩
    · refine bind_node (.refl origin) (walks.expression origin) fun expression cursor since => ?_
      exact bind_expect since fun cursor since => .finish since (by simp) rfl

/-- One more step of the bound. -/
theorem succ : Extends (bound + 1) where
  expression := walks.expression_succ
  assignment := walks.assignment_succ
  lambda := walks.lambda_succ
  coalesce := walks.coalesce_succ
  binary := walks.binary_succ
  binaryRest _ _ _ _ := walks.binaryRest_succ
  unary := walks.unary_succ
  postfixRest _ _ _ := walks.postfixRest_succ
  arguments := walks.arguments_succ
  expressions := walks.expressions_succ
  primary := walks.primary_succ
  block := walks.block_succ
  statements := walks.statements_succ
  statement := walks.statement_succ
  parenthesized := walks.parenthesized_succ
  optional := walks.optional_succ
  declarators := walks.declarators_succ
  forLoop := walks.forLoop_succ

end Extends

/-- The walk through the grammar. -/
theorem extends_of_bound : ∀ bound, Extends bound
  | 0 => .zero
  | bound + 1 => (extends_of_bound bound).succ

/-- Reading a method. -/
theorem yields_method (bound : Nat)
    (origin : Cursor) : YieldsNode origin origin (method bound) := by
  rw [method]
  refine bind_here
    (bind_node (.refl origin) (yields_typeRef bound origin) fun type cursor since => ?_)
  refine bind_name since fun text cursor since => ?_
  refine bind_expect since fun cursor since => bind_atMark ?_
  have finishing {cursor : Cursor} {params : List SourceTerm} {list : List Part}
      (listed : Listed params list)
      (since : origin.Since ([.node type, .name text, sign .lparen] ++ list) cursor) :
      YieldsNode origin cursor (do
        expect .rparen
        let body ← block bound
        finish origin.span (.method (some type) text params (some body))) := by
    refine bind_expect since fun cursor since => ?_
    refine bind_node since ((extends_of_bound bound).block cursor) fun body cursor since => ?_
    exact .finish since (by simp) ⟨list, listed, by simp [child]⟩
  split
  · exact finishing (.inl ⟨rfl, rfl⟩) since
  · refine Yields.bind since (yields_methodParams bound cursor)
      fun params list cursor commas since => ?_
    exact finishing (.inr commas) since

/-- Reading the members of a unit. -/
theorem yields_members (bound : Nat) (origin : Cursor) :
    Yields origin origin (members bound) fun terms parts => parts = terms.map .node := by
  induction bound generalizing origin with
  | zero => exact .exhausted
  | succ bound ih =>
    rw [members]
    refine bind_lexeme ?_
    split
    · exact .pure (.refl origin) rfl
    · refine bind_tokens ?_
      have rest {first : Parser SourceTerm} (yields : YieldsNode origin origin first) :
          Yields origin origin (do return (← first) :: (← members bound)) fun terms parts =>
            parts = terms.map .node := by
        refine bind_node (.refl origin) yields fun first cursor since => ?_
        refine Yields.bind since (ih cursor) fun others _ cursor inside since => ?_
        subst inside
        exact .pure since rfl
      split
      · exact rest (yields_method bound origin)
      · exact rest ((extends_of_bound bound).statement origin)

/-- Members are read up to the end of the input. -/
theorem members_end (bound : Nat) (tokens : List Token) :
    Meets (members bound) tokens (fun _ rest => Token.first rest = .endOfInput) True True := by
  have anyway {parser : Parser SourceTerm} (tokens : List Token) :
      Meets parser tokens (fun _ _ => True) True True := by
    intro previous
    split <;> trivial
  induction bound generalizing tokens with
  | zero => exact .exhausted trivial
  | succ bound ih =>
    rw [members]
    refine Meets.bind_lexeme ?_
    split
    · rename_i ends
      exact .pure (beq_iff_eq.1 ends)
    · refine Meets.bind_tokens ?_
      split <;> exact Meets.bind (anyway _) fun _ rest _ => Meets.bind (ih rest) fun _ _ ends =>
        .pure ends

/-- Reading a unit. -/
theorem exists_fills_of_unit {bound : Nat} {after : Cursor}
    (ran : (unit bound).run origin = .ok (term, after)) :
    ∃ members used cursor, term = .node ⟨0, cursor.span.stop⟩ (.unit members) ∧
      Fills Occupies (members.map .node) used ∧ origin.Passed used cursor ∧
      cursor.lexeme = .endOfInput := by
  have ends := members_end bound origin.tokens origin.previous
  rw [unit, StateT.run_bind] at ran
  match here : (members bound).run origin with
  | .error failure =>
    rw [here] at ran
    cases ran
  | .ok (members, cursor) =>
    rw [here] at ran ends
    cases ran
    obtain ⟨_, ⟨used, fills, passed⟩, rfl⟩ := yields_members bound origin members cursor here
    exact ⟨members, used, cursor, rfl, fills, passed, ends⟩

end Parser

namespace SourceTerm

/-- Reading that stops at the end of the input has passed all tokens before it. -/
theorem eq_of_append_eq {others used rest : List Token} {span : Span}
    (split : others ++ [⟨.endOfInput, span⟩] = used ++ rest)
    (inside : ∀ token ∈ others, token.lexeme ≠ .endOfInput)
    (passed : ∀ token ∈ used, token.lexeme ≠ .endOfInput) (ends : Token.first rest = .endOfInput) :
    used = others ∧ rest = [⟨.endOfInput, span⟩] := by
  rcases List.append_eq_append_iff.1 split with ⟨more, rfl, last⟩ | ⟨more, rfl, rfl⟩
  · cases more with
    | nil => exact ⟨List.append_nil _, last.symm⟩
    | cons token more =>
      obtain ⟨rfl, -⟩ := List.cons.inj last
      exact absurd rfl (passed _ (List.mem_append_right _ (.head _)))
  · cases more with
    | nil => exact ⟨(List.append_nil _).symm, rfl⟩
    | cons token more => exact absurd ends (inside token (List.mem_append_right _ (.head _)))

theorem exists_run_of_ofTokens {tokens : List Token} (read : ofTokens tokens = .ok term) :
    ∃ after, (Parser.unit (Parser.unitBound tokens)).run ⟨tokens, .nowhere⟩ =
    .ok (term, after) := by
  rw [ofTokens] at read
  cases ran : (Parser.unit (Parser.unitBound tokens)).run ⟨tokens, .nowhere⟩ with
  | error failure =>
    rw [ran] at read
    cases read
  | ok result =>
    rw [ran] at read
    cases read
    exact ⟨result.2, rfl⟩

/-- A source text is read as a unit that spans all of it, whose members take all tokens but the end
of the input. -/
theorem exists_fills_of_parse {source : String} (parsed : parse source = .ok term) :
    ∃ members used, term = .node (Span.ofRange 0 source.utf8ByteSize) (.unit members) ∧
      Token.scan source
        = .ok (used ++ [⟨.endOfInput, Span.ofRange source.utf8ByteSize source.utf8ByteSize⟩]) ∧
      Fills Occupies (members.map .node) used := by
  rw [parse] at parsed
  split at parsed
  · rename_i tokens scanned
    obtain ⟨others, rfl, inside⟩ := Token.exists_others_of_scan scanned
    obtain ⟨after, ran⟩ := exists_run_of_ofTokens parsed
    obtain ⟨members, used, cursor, rfl, fills, passed, ends⟩ := Parser.exists_fills_of_unit ran
    obtain ⟨rfl, last⟩ := eq_of_append_eq passed.tokens_eq inside passed.inside ends
    refine ⟨members, used, ?_, scanned, fills⟩
    rw [Cursor.span, last]
    simp only [Span.ofRange, Nat.zero_min]
  · cases parsed

end SourceTerm

end Refactory
