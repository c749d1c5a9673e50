import Refactory.Proofs.Grammar.Run

/-!
# The lookahead agrees with the grammar

The lookahead finds the end of a type without reading it, and both are written apart from each
other. With one bound they go the same way, token by token (`Parser.meets_types_past`), and a bound
that grows with the tokens passed finds every end that any bound finds (`Token.past_of_enough`).
Hence `Token.pastType?` gives an end exactly where `Parser.typeRef` does, and the same one.

What a test of the lookahead sees is the head of a construct: the type and the name of a declaration
or a method, the parameters and the arrow of a lambda. Each head is named here with what is left to
read after it, so that a construct that gets past its head (`Parser.GetsPast`) goes on from there.
-/
namespace Refactory

variable {span : Span} {bound : Nat} {tokens rest : List Token}

namespace Token

open Lexeme

/-- A type takes at least one token. -/
theorem length_pos_of_isType {used : List Token} (isType : IsType (lexemes used)) :
    0 < used.length := by
  cases used with
  | nil => cases isType
  | cons token used => exact Nat.succ_pos _

/-- Fewer tokens are left after a type. -/
theorem length_lt_of_pastType?
    (passed : pastType? bound tokens = some rest) : rest.length < tokens.length := by
  obtain ⟨used, rfl, isType⟩ := (isType_of_past bound).1 _ _ passed
  have positive := length_pos_of_isType isType
  simp only [List.length_append]
  omega

/-- Fewer tokens are left after type arguments. -/
theorem length_lt_of_pastTypeArguments?
    (passed : pastTypeArguments? bound tokens = some rest) : rest.length < tokens.length := by
  obtain ⟨used, rfl, arguments, -, spelled⟩ := (isType_of_past bound).2 _ _ passed
  have counted := congrArg List.length spelled
  simp only [lexemes, List.length_map, List.length_append, List.length_cons] at counted ⊢
  omega

/-- No more tokens are left after array suffixes. -/
theorem length_pastRank_le (tokens : List Token) : (pastRank tokens).length ≤ tokens.length := by
  simp [pastRank]

/-- An end found with some bound is found with every bound that allows two steps for each token
passed. -/
theorem past_of_enough (bound : Nat) :
    (∀ tokens rest enough, pastType? bound tokens = some rest →
      2 * tokens.length ≤ enough + 2 * rest.length → pastType? enough tokens = some rest) ∧
    (∀ tokens rest enough, pastTypeArguments? bound tokens = some rest →
      2 * tokens.length ≤ enough + 2 * rest.length →
      pastTypeArguments? enough tokens = some rest) := by
  induction bound with
  | zero => simp [pastType?, pastTypeArguments?]
  | succ bound ih =>
    obtain ⟨ofType, ofArguments⟩ := ih
    constructor
    · intro tokens rest enough passed large
      have less := length_lt_of_pastType? passed
      obtain ⟨enough, rfl⟩ : ∃ fewer, enough = fewer + 1 := Nat.exists_eq_succ_of_ne_zero (by omega)
      unfold pastType? at passed ⊢
      split at passed
      · obtain ⟨after, found, rfl⟩ := Option.map_eq_some_iff.1 passed
        have shorter := length_pastRank_le after
        simp only [List.length_cons] at large
        rw [ofArguments _ _ enough found (by omega), Option.map_some]
      · exact passed
      · cases passed
    · intro tokens rest enough passed large
      have less := length_lt_of_pastTypeArguments? passed
      obtain ⟨enough, rfl⟩ : ∃ fewer, enough = fewer + 1 := Nat.exists_eq_succ_of_ne_zero (by omega)
      unfold pastTypeArguments? at passed ⊢
      split at passed
      · rename_i found
        have first := length_lt_of_pastType? found
        have others := length_lt_of_pastTypeArguments? passed
        simp only [List.length_cons] at first
        rw [ofType _ _ enough found (by simp only [List.length_cons]; omega)]
        exact ofArguments _ _ enough passed (by omega)
      · rename_i found
        obtain rfl := Option.some.inj passed
        have first := length_lt_of_pastType? found
        simp only [List.length_cons] at first
        rw [ofType _ _ enough found (by simp only [List.length_cons]; omega)]
      · cases passed

/-- The bound of the lookahead finds the same end as any larger one. -/
theorem pastType?_eq_of_le (enough : typeBound tokens ≤ bound) :
    pastType? bound tokens = pastType? (typeBound tokens) tokens := by
  have whole : 2 * tokens.length ≤ typeBound tokens := by
    simp only [typeBound]
    omega
  refine Option.ext fun rest => ⟨fun passed => ?_, fun passed => ?_⟩
  · exact (past_of_enough bound).1 _ _ _ passed (by omega)
  · exact (past_of_enough _).1 _ _ _ passed (by omega)

end Token

namespace Parser

open Lexeme

/-- Types and type arguments are read exactly where the lookahead with the same bound passes
them, and up to the same place. The bound runs out only where it is smaller than two steps for
each token. -/
theorem meets_types_past (bound : Nat) :
    (∀ tokens, Meets (typeRef bound) tokens (fun _ rest => Token.pastType? bound tokens = some rest)
      (Token.pastType? bound tokens = none)
      (Token.pastType? bound tokens = none ∧ bound < 2 * tokens.length + 1)) ∧
    (∀ tokens, Meets (typeArguments bound) tokens
      (fun _ rest => Token.pastTypeArguments? bound tokens = some rest)
      (Token.pastTypeArguments? bound tokens = none)
      (Token.pastTypeArguments? bound tokens = none ∧ bound < 2 * tokens.length + 2)) := by
  induction bound with
  | zero =>
    exact ⟨fun _ => .exhausted ⟨rfl, Nat.succ_pos _⟩, fun _ => .exhausted ⟨rfl, Nat.succ_pos _⟩⟩
  | succ bound ih =>
    obtain ⟨ofType, ofArguments⟩ := ih
    constructor
    · intro tokens
      rw [typeRef]
      refine Meets.bind_here fun start => Meets.bind_name ?_ fun noName => ?_
      · rintro name span rest rfl
        have finishing {after : List Token} {arguments : List SourceTerm} {exhaustion : Prop}
            (passed : Token.pastType? (bound + 1) (⟨.identifier name, span⟩ :: rest)
              = some (Token.pastRank after)) :
            Meets (do
              let rank := Token.rank (← Parser.tokens)
              skip (2 * rank)
              finish start (.typeRef name arguments (min rank largestRank))) after
              (fun _ last =>
                Token.pastType? (bound + 1) (⟨.identifier name, span⟩ :: rest) = some last)
              (Token.pastType? (bound + 1) (⟨.identifier name, span⟩ :: rest) = none) exhaustion :=
          Meets.bind_tokens (Meets.bind_rank (Meets.finish fun _ => passed))
        refine Meets.bind_eat ?_ fun other => finishing ?_
        · rintro span' inner rfl
          have failing (none : Token.pastTypeArguments? bound inner = none) :
              Token.pastType? (bound + 1) (⟨.identifier name, span⟩ :: ⟨.mark .lt, span'⟩ :: inner)
                = .none := by
            rw [Token.pastType?, none, Option.map_none]
          refine Meets.bind ((ofArguments inner).mono (fun _ _ known => known) failing ?_) ?_
          · rintro ⟨none, short⟩
            refine ⟨failing none, ?_⟩
            simp only [List.length_cons]
            omega
          · rintro arguments after found
            refine finishing ?_
            rw [Token.pastType?, found, Option.map_some]
        · unfold Token.pastType?
          split
          · rename_i same
            cases same
            exact absurd rfl other
          · rename_i same
            cases same
            rfl
          · rename_i noName
            exact absurd rfl (noName _ _ _)
      · unfold Token.pastType?
        split
        · exact absurd rfl (noName _)
        · exact absurd rfl (noName _)
        · rfl
    · intro tokens
      rw [typeArguments]
      have failing (none : Token.pastType? bound tokens = none) :
          Token.pastTypeArguments? (bound + 1) tokens = .none := by
        rw [Token.pastTypeArguments?, none]
      refine Meets.bind ((ofType tokens).mono (fun _ _ known => known) failing ?_) ?_
      · rintro ⟨none, short⟩
        exact ⟨failing none, by omega⟩
      rintro first rest found
      have less := Token.length_lt_of_pastType? found
      rw [Token.pastTypeArguments?, found]
      refine Meets.bind_eat ?_ fun noComma => Meets.bind_expect ?_ fun noGt => ?_
      · rintro span inner rfl
        refine Meets.bind ((ofArguments inner).mono (fun _ _ known => known) id ?_) ?_
        · rintro ⟨none, short⟩
          simp only [List.length_cons] at less
          exact ⟨none, by omega⟩
        · rintro others after known
          exact .pure known
      · rintro span after rfl
        exact .pure rfl
      · split
        · rename_i same
          cases same
          exact absurd rfl noComma
        · rename_i same
          cases same
          exact absurd rfl noGt
        · rfl

/-- A type is read exactly where the lookahead sees one, and up to the same place, whatever the
bound is as long as it suffices. -/
theorem meets_typeRef_past
    (enough : Token.typeBound tokens ≤ bound) :
    Meets (typeRef bound) tokens
      (fun _ rest => Token.pastType? (Token.typeBound tokens) tokens = some rest)
      (Token.pastType? (Token.typeBound tokens) tokens = none) False := by
  have meets := (meets_types_past bound).1 tokens
  rw [Token.pastType?_eq_of_le enough] at meets
  refine meets.mono (fun _ _ known => known) id ?_
  rintro ⟨-, short⟩
  simp only [Token.typeBound] at enough
  omega

/-- A type that the lookahead sees is read. -/
theorem meets_typeRef_of_past
    (enough : Token.typeBound tokens ≤ bound)
    (passed : Token.pastType? (Token.typeBound tokens) tokens = some rest) :
    Meets (typeRef bound) tokens (fun _ after => after = rest) False False := by
  have meets := meets_typeRef_past enough
  rw [passed] at meets
  exact meets.mono (fun _ _ known => (Option.some.inj known).symm) (nomatch ·) id

/-- What the lookahead does not see as a type is refused as one. -/
theorem meets_typeRef_of_none
    (enough : Token.typeBound tokens ≤ bound)
    (none : Token.pastType? (Token.typeBound tokens) tokens = none) :
    Meets (typeRef bound) tokens (fun _ _ => False) True False := by
  have meets := meets_typeRef_past enough
  rw [none] at meets
  exact meets.mono (fun _ _ known => nomatch known) (fun _ => trivial) id

/-- A parser gets past the head of what it reads: the head is read without an error, and the parser
goes on after it with the rest. -/
def GetsPast {α β : Type} (parser : Parser α) (head : Parser β) (rest : Span → β → Parser α)
    (cursor : Cursor) : Prop :=
  ∃ value after, head.run cursor = .ok (value, after) ∧
    parser.run cursor = (rest cursor.span value).run after

/-- A parser that starts with a head that can neither refuse nor run out gets past it. -/
theorem getsPast_of_meets {α β : Type} {head : Parser β} {rest : Span → β → Parser α}
    {result : β → List Token → Prop}
    (meets : Meets head tokens result False False) (previous : Span) :
    GetsPast (here >>= fun start => head >>= rest start) head rest ⟨tokens, previous⟩ := by
  obtain ⟨value, after, ran, -⟩ := meets.exists_run previous
  refine ⟨value, after, ran, ?_⟩
  change ((head >>= rest _).run ⟨tokens, previous⟩) = _
  rw [StateT.run_bind, ran]
  rfl

/-- The head of a declaration or a method: its type, and its name with the place where it starts. -/
def typedName (bound : Nat) : Parser (SourceTerm × Span × String) := do
  let type ← typeRef bound
  let place ← here
  let name ← name
  return (type, place, name)

/-- A type and a name that the lookahead sees are read. -/
theorem meets_typedName {name : String}
    (enough : Token.typeBound tokens ≤ bound)
    (passed : Token.pastType? (Token.typeBound tokens) tokens
      = some (⟨.identifier name, span⟩ :: rest)) :
    Meets (typedName bound) tokens (fun _ after => after = rest) False False := by
  refine Meets.bind (meets_typeRef_of_past enough passed) ?_
  rintro type _ rfl
  exact Meets.bind_here fun place => Meets.bind_name_identifier (.pure rfl)

/-- What is read of declared names after the first of them. -/
def declaratorsRest (bound : Nat) (place : Span) (name : String) : Parser (List SourceTerm) := do
  let value ← if ← eat .eq then some <$> expression bound else pure none
  let first ← finish place (.declarator name value)
  if ← eat .comma then
    return first :: (← declarators bound)
  else
    return [first]

/-- What is read of a local declaration after its head. Only one that is a statement is
terminated. -/
def localDeclRest (bound : Nat) (terminated : Bool) (start : Span)
    (head : SourceTerm × Span × String) : Parser SourceTerm := do
  let (type, place, name) := head
  let declarators ← declaratorsRest bound place name
  if terminated then expect .semi
  finish start (.localDecl type declarators)

/-- Reads a local declaration, as a statement or in the header of a loop. -/
def localDecl (bound : Nat) (terminated : Bool) : Parser SourceTerm := do
  let start ← here
  let head ← typedName (bound + 1)
  localDeclRest bound terminated start head

/-- What is read of a counted loop after the declaration in its header. -/
def forLoopRest (bound : Nat) (start : Span) (declaration : SourceTerm) : Parser SourceTerm := do
  expect .semi
  let condition ← optional bound .semi
  expect .semi
  let incrementors ← if ← atMark .rparen then pure [] else expressions bound
  expect .rparen
  let body ← statement bound
  finish start (.forLoop (some declaration) [] condition incrementors body)

/-- What is read of a method after its head. -/
def methodRest (bound : Nat) (start : Span) (head : SourceTerm × Span × String) :
    Parser SourceTerm := do
  let (result, _, name) := head
  expect .lparen
  let params ← if ← atMark .rparen then pure [] else methodParams bound
  expect .rparen
  let body ← block bound
  finish start (.method result name params body)

/-- The head of a lambda: its parameters and the arrow. -/
def lambdaHead (bound : Nat) : Parser (List SourceTerm × Bool) := do
  let parenthesized ← eat .lparen
  let params ← if parenthesized then lambdaParams bound else pure [← lambdaParam]
  if parenthesized then expect .rparen
  expect .arrow
  return (params, parenthesized)

/-- What is read of a lambda after its head. -/
def lambdaRest (bound : Nat) (start : Span) (head : List SourceTerm × Bool) :
    Parser SourceTerm := do
  let (params, parenthesized) := head
  let body ← if ← atMark .lbrace then block bound else expression bound
  finish start (.lambda params body parenthesized)

/-- Looking at a span that nothing uses changes nothing. -/
theorem here_bind_const {α : Type} (parser : Parser α) : (here >>= fun _ => parser) = parser := rfl

theorem method_eq (bound : Nat) :
    method bound = here >>= fun start => typedName bound >>= methodRest bound start := by
  simp only [method, typedName, methodRest, bind_assoc, pure_bind, here_bind_const]

theorem lambda_eq (bound : Nat) :
    lambda (bound + 1) = here >>= fun start => lambdaHead bound >>= lambdaRest bound start := by
  rw [lambda]
  refine bind_congr fun start => ?_
  rw [lambdaHead, bind_assoc]
  refine bind_congr fun parenthesized => ?_
  cases parenthesized <;> simp [lambdaRest]

/-- Tokens that start with a type start with a name. -/
theorem exists_of_pastType?
    (passed : Token.pastType? bound tokens = some rest) :
    ∃ name span after, tokens = ⟨.identifier name, span⟩ :: after := by
  unfold Token.pastType? at passed
  split at passed
  · cases passed
  · split at passed
    · exact ⟨_, _, _, rfl⟩
    · exact ⟨_, _, _, rfl⟩
    · cases passed

/-- A type and a name are in front where the lookahead sees them with what follows. -/
theorem exists_of_ahead {follows : Lexeme → Bool}
    (ahead : Ahead follows (Token.lexemes tokens)) :
    ∃ name span rest, Token.pastType? (Token.typeBound tokens) tokens
        = some (⟨.identifier name, span⟩ :: rest) := by
  obtain ⟨name, span, next, rest, -, passed⟩ := (Token.ahead_iff tokens).1 ahead
  exact ⟨name, span, next :: rest, passed⟩

/-- A statement that starts like a local declaration is read as one. -/
theorem statement_of_atLocalDecl
    (ahead : Token.atLocalDecl tokens = true) (previous : Span) :
    (statement (bound + 2)).run ⟨tokens, previous⟩ =
    (localDecl bound true).run ⟨tokens, previous⟩ := by
  obtain ⟨_, _, _, passed⟩ := exists_of_ahead ((Token.atLocalDecl_iff tokens).1 ahead)
  obtain ⟨name, span, after, rfl⟩ := exists_of_pastType? passed
  rw [statement, run_bind_here, run_bind_lexeme]
  simp only [Cursor.lexeme, Token.first]
  rw [run_bind_tokens, if_pos ahead, localDecl, run_bind_here]
  simp only [typedName, localDeclRest, declarators, declaratorsRest, bind_assoc, pure_bind, if_true]

/-- The header of a loop that starts like a local declaration is read as one. -/
theorem forLoop_of_atLocalDecl {first second : Span}
    (ahead : Token.atLocalDecl tokens = true) (previous : Span) :
    (forLoop (bound + 2)).run
    ⟨⟨.keyword .for, first⟩ :: ⟨.mark .lparen, second⟩ :: tokens, previous⟩ =
      (localDecl bound false >>= forLoopRest (bound + 1) first).run ⟨tokens, second⟩ := by
  rw [forLoop, run_bind_here, run_bind_expectKeyword, run_bind_expect, run_bind_here,
    run_bind_tokens, if_pos ahead, localDecl, bind_assoc, run_bind_here]
  simp only [typedName, localDeclRest, declarators, declaratorsRest, bind_assoc, pure_bind,
    Bool.false_eq_true, if_false]
  rfl

/-- A name in front is read as a parameter. -/
theorem meets_lambdaParam_of_name {name : String} :
    Meets lambdaParam (⟨.identifier name, span⟩ :: rest)
      (fun _ after => after = rest) False False :=
  Meets.bind_here fun _ => Meets.bind_name_identifier (Meets.finish fun _ => rfl)

/-- The parameters of a lambda that the lookahead sees are read up to the parenthesis. -/
theorem meets_lambdaParams_of_closes
    (closes : Token.closesLambdaParams tokens = true) (enough : tokens.length ≤ bound) :
    Meets (lambdaParams bound) tokens
      (fun _ after => ∃ first second rest,
        after = ⟨.mark .rparen, first⟩ :: ⟨.mark .arrow, second⟩ :: rest) False False := by
  induction bound generalizing tokens with
  | zero =>
    rw [List.eq_nil_of_length_eq_zero (Nat.le_zero.1 enough)] at closes
    cases closes
  | succ bound ih =>
    rw [lambdaParams]
    refine Meets.bind_atMark ?_
    unfold Token.closesLambdaParams at closes
    split at closes
    · simp only [List.length_cons] at enough
      refine Meets.bind meets_lambdaParam_of_name ?_
      rintro param _ rfl
      refine Meets.bind_eat_mark (Meets.bind (ih closes (by omega)) ?_)
      rintro params after known
      exact .pure known
    · refine Meets.bind meets_lambdaParam_of_name ?_
      rintro param _ rfl
      exact Meets.bind_eat_other (by simp [Token.first]) (.pure ⟨_, _, _, rfl⟩)
    · cases closes

/-- A parenthesis that closes at once has no parameters in it. -/
theorem meets_lambdaParams_of_rparen
    (positive : 0 < bound) :
    Meets (lambdaParams bound) (⟨.mark .rparen, span⟩ :: rest)
      (fun _ after => after = ⟨.mark .rparen, span⟩ :: rest) False False := by
  obtain ⟨bound, rfl⟩ := Nat.exists_eq_succ_of_ne_zero (Nat.ne_of_gt positive)
  rw [lambdaParams]
  exact Meets.bind_atMark (.pure rfl)

/-- The head of a lambda that the lookahead sees is read. -/
theorem meets_lambdaHead (ahead : Token.atLambda tokens = true)
    (enough : tokens.length ≤ bound) :
    Meets (lambdaHead bound) tokens (fun _ _ => True) False False := by
  have ending {span : Span} {rest : List Token} {params : List SourceTerm} {parenthesized : Bool} :
      Meets (do
        expect .arrow
        return (params, parenthesized)) (⟨.mark .arrow, span⟩ :: rest)
          (fun _ _ => True) False False :=
    Meets.bind_expect_mark (.pure trivial)
  rw [lambdaHead]
  unfold Token.atLambda at ahead
  split at ahead
  · refine Meets.bind_eat_other (by simp [Token.first]) ?_
    refine Meets.bind meets_lambdaParam_of_name ?_
    rintro param _ rfl
    exact ending
  · simp only [List.length_cons] at enough
    refine Meets.bind_eat_mark (Meets.bind (meets_lambdaParams_of_rparen (by omega)) ?_)
    rintro params _ rfl
    exact Meets.bind_expect_mark ending
  · simp only [List.length_cons] at enough
    refine Meets.bind_eat_mark (Meets.bind (meets_lambdaParams_of_closes ahead (by omega)) ?_)
    rintro params _ ⟨first, second, rest, rfl⟩
    exact Meets.bind_expect_mark ending
  · cases ahead

/-- The lookahead and the grammar agree. A type is read exactly where the lookahead finds an end of
one, and up to that end, and it is refused where the lookahead finds none. Where the lookahead sees
a local declaration, a statement and the header of a loop read one, and it gets past its type and
its name; where it sees a method or a lambda, reading one gets past the type and the name or past
the parameters and the arrow. -/
theorem lookahead_agrees {bound : Nat} {tokens : List Token}
    (enough : Token.typeBound tokens ≤ bound)
    (previous : Span) :
    (∀ rest, Token.pastType? (Token.typeBound tokens) tokens = some rest ↔
      ∃ type last, (typeRef bound).run ⟨tokens, previous⟩ = .ok (type, ⟨rest, last⟩)) ∧
    (Token.pastType? (Token.typeBound tokens) tokens = none ↔
      ∃ error, (typeRef bound).run ⟨tokens, previous⟩ = .error (.refused error)) ∧
    (Token.atLocalDecl tokens = true → (statement (bound + 2)).run ⟨tokens, previous⟩
        = (localDecl bound true).run ⟨tokens, previous⟩ ∧ (∀ first before, (forLoop (bound + 2)).run
          ⟨⟨.keyword .for, first⟩ :: ⟨.mark .lparen, previous⟩ :: tokens, before⟩ =
        (localDecl bound false >>= forLoopRest (bound + 1) first).run ⟨tokens, previous⟩) ∧
      ∀ terminated, GetsPast (localDecl bound terminated) (typedName (bound + 1))
        (localDeclRest bound terminated) ⟨tokens, previous⟩) ∧
    (Token.atMethod tokens = true →
      GetsPast (method bound) (typedName bound) (methodRest bound) ⟨tokens, previous⟩) ∧
    (Token.atLambda tokens = true →
      GetsPast (lambda (bound + 1)) (lambdaHead bound) (lambdaRest bound) ⟨tokens, previous⟩) := by
  refine ⟨fun rest => ⟨fun passed => ?_, ?_⟩, ⟨fun none => ?_, ?_⟩, fun ahead => ?_, fun ahead =>
    ?_, fun ahead => ?_⟩
  · obtain ⟨type, ⟨_, last⟩, ran, rfl⟩ := (meets_typeRef_of_past enough passed).exists_run previous
    exact ⟨type, last, ran⟩
  · rintro ⟨type, last, ran⟩
    have meets := meets_typeRef_past enough previous
    rwa [ran] at meets
  · exact (meets_typeRef_of_none enough none).exists_refused previous
  · rintro ⟨error, ran⟩
    have meets := meets_typeRef_past enough previous
    rwa [ran] at meets
  · refine ⟨statement_of_atLocalDecl ahead previous,
      fun first before => forLoop_of_atLocalDecl ahead before, fun terminated => ?_⟩
    obtain ⟨name, span, rest, passed⟩ := exists_of_ahead ((Token.atLocalDecl_iff tokens).1 ahead)
    exact getsPast_of_meets (meets_typedName (Nat.le_succ_of_le enough) passed) previous
  · obtain ⟨name, span, rest, passed⟩ := exists_of_ahead ((Token.atMethod_iff tokens).1 ahead)
    rw [method_eq]
    exact getsPast_of_meets (meets_typedName enough passed) previous
  · rw [lambda_eq]
    refine getsPast_of_meets (meets_lambdaHead ahead ?_) previous
    simp only [Token.typeBound] at enough
    omega

/-- A declaration of a list of arrays, `List<int[]> xs;`. Its type is read up to the name, and the
whole as a declaration. -/
theorem lookahead_agrees_of_generic :
    let tokens : List Token := [.identifier "List", .mark .lt, .identifier "int", .mark .lbracket,
      .mark .rbracket, .mark .gt, .identifier "xs", .mark .semi, .endOfInput].map
        fun lexeme => ⟨lexeme, .nowhere⟩
    Token.typeBound tokens ≤ 20 ∧ Token.atLocalDecl tokens = true ∧
      (∃ type last, (typeRef 20).run ⟨tokens, .nowhere⟩ = .ok (type, ⟨tokens.drop 6, last⟩)) ∧
      (statement 22).run ⟨tokens, .nowhere⟩ = (localDecl 20 true).run ⟨tokens, .nowhere⟩ ∧
      GetsPast (localDecl 20 true) (typedName 21) (localDeclRest 20 true) ⟨tokens, .nowhere⟩ := by
  intro tokens
  have enough : Token.typeBound tokens ≤ 20 := Nat.le_of_eq rfl
  have ahead : Token.atLocalDecl tokens = true := rfl
  obtain ⟨ends, -, declares, -⟩ := lookahead_agrees enough .nowhere
  obtain ⟨asStatement, -, past⟩ := declares ahead
  exact ⟨enough, ahead, (ends _).1 rfl, asStatement, past true⟩

end Parser

end Refactory
