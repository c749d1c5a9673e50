import Mathlib.Logic.Relation
import Refactory.Proofs.Grammar.Extent
import Refactory.Proofs.Grammar.Routine

/-!
# Reading comes to an end

The routines of the grammar call one another through many levels without reading a token. Each has a
depth, and a call made at the place of its caller goes to a routine of a smaller depth, while a call
made behind it may go anywhere (`Routine.descends`). So a call needs a bound that depends on the
tokens left and on the depth alone (`Call.demand`); with any larger bound it comes to the same
(`Routine.outcome_perform`), and it never gives up. What it comes to then, `Routine.settled`, obeys
the plans without any bound (`Routine.settled_eq`), and the calls that are made in it can be
followed: no chain of them comes back to a routine without a token having been read.
-/
namespace Refactory

open Plan (lift ask)

variable {mark : Mark} {call : Call}

namespace Routine

/-- The lexemes in front of which a routine may succeed without reading a token: the end of a list
that may be empty, or anything for the routines that go on after an operand. -/
def Idles : (routine : Routine) → routine.Input → Lexeme → Prop
  | lambdaParams, _, next | arguments, _, next => next = .mark .rparen
  | optional, ending, next => next = .mark ending
  | statements, _, next => next = .mark .rbrace ∨ next = .endOfInput
  | members, _, next | unit, _, next => next = .endOfInput
  | binaryRest _, _, _ | postfixRest, _, _ => True
  | _, _, _ => False

/-- The distance of a routine from the bottom of the grammar. -/
def depth : Routine → Nat
  | typeRef | lambdaParams | lambda | binaryRest _ | postfixRest | primary | block | parenthesized
  | declarators | forLoop => 1
  | typeArguments | methodParams | unary | method => 2
  | binary level => 3 + (BinaryOp.tightest + 1 - level)
  | coalesce => 10
  | assignment => 11
  | expression => 12
  | arguments | expressions | optional | statement => 13
  | statements | members => 14
  | unit => 15

end Routine

/-- A call may succeed without reading a token. -/
def Call.Idles (call : Call) : Prop := call.routine.Idles call.input call.cursor.lexeme

/-- Calls move forward, and past a token unless they may idle. -/
class Performance.Advances (perform : Performance) : Prop where
  /-- No token is read twice. -/
  reaches : ∀ call value after, perform.outcome call = .ok (value, after) →
    call.cursor.Reaches after
  /-- A call that may not idle reads a token. -/
  precedes : ∀ call value after, ¬call.Idles → perform.outcome call = .ok (value, after) →
    call.cursor.Precedes after

/-- Nothing stands behind itself. -/
theorem Cursor.not_precedes_self (cursor : Cursor) : ¬cursor.Precedes cursor :=
  fun ahead => Nat.lt_irrefl _ ahead.length_lt

namespace Parser

variable {α β : Type} {cursor : Cursor}

/-- An action does not succeed without reading a token. -/
def Passes (action : Parser α) (cursor : Cursor) : Prop :=
  ∀ value, action.run cursor ≠ .ok (value, cursor)

theorem Passes.bind {first : Parser α} {next : α → Parser β} [Steady first]
    [∀ value, Steady (next value)]
    (passes : first.Passes cursor) : (first >>= next).Passes cursor := by
  intro value ran
  rcases Steady.bind_cases ran with ⟨failure, -, failed⟩ | ⟨read, middle, begun, ended⟩
  · cases failed
  · rcases (Steady.reaches begun).eq_or_precedes with rfl | ahead
    · exact passes read begun
    · exact cursor.not_precedes_self (ahead.trans (Steady.reaches ended))

theorem passes_advance (more : cursor.lexeme ≠ .endOfInput) : advance.Passes cursor := by
  intro _ ran
  have same : cursor.next = cursor := (Prod.mk.inj (Except.ok.inj ran)).2
  have ahead := Cursor.precedes_next more
  rw [same] at ahead
  exact cursor.not_precedes_self ahead

theorem passes_refuse {wanted : Expectation} : (refuse wanted : Parser α).Passes cursor := nofun

/-- A mark that is in front is passed. -/
theorem eat_cases {value : Bool} (ran : (eat mark).run cursor = .ok (value, cursor)) :
    value = false ∧ cursor.lexeme ≠ .mark mark := by
  rw [eat] at ran
  change (if (cursor.lexeme == .mark mark) = true then _ else _ : Parser Bool).run cursor = _ at ran
  split at ran
  · rename_i same
    have more : cursor.lexeme ≠ .endOfInput := by simp [beq_iff_eq.1 same]
    exact ((passes_advance more).bind value ran).elim
  · rename_i other
    cases ran
    exact ⟨rfl, fun same => other (beq_iff_eq.2 same)⟩

theorem passes_expect : (expect mark).Passes cursor := by
  intro value ran
  rcases Steady.bind_cases ran with ⟨failure, -, failed⟩ | ⟨read, middle, begun, ended⟩
  · cases failed
  · rcases (Steady.reaches begun).eq_or_precedes with rfl | ahead
    · obtain ⟨rfl, -⟩ := eat_cases begun
      cases ended
    · exact cursor.not_precedes_self (ahead.trans (Steady.reaches ended))

theorem passes_expectKeyword {word : Keyword} : (expectKeyword word).Passes cursor := by
  intro value ran
  rw [expectKeyword] at ran
  change (if (cursor.lexeme == .keyword word) = true then _ else _ : Parser Unit).run cursor
    = _ at ran
  split at ran
  · rename_i same
    have more : cursor.lexeme ≠ .endOfInput := by simp [beq_iff_eq.1 same]
    exact passes_advance more value ran
  · cases ran

theorem passes_name : name.Passes cursor := by
  intro value ran
  rw [name, run_bind_lexeme] at ran
  split at ran
  · rename_i text same
    have more : cursor.lexeme ≠ .endOfInput := by simp [same]
    exact (passes_advance more).bind value ran
  · cases ran

theorem passes_lambdaParam : lambdaParam.Passes cursor := by
  intro value ran
  change (name >>= fun text => finish cursor.span (.param none text)).run cursor = _ at ran
  exact passes_name.bind value ran

theorem passes_literal {form : Term.Form Span} (more : cursor.lexeme ≠ .endOfInput) :
    (literal form).Passes cursor := by
  intro value ran
  change (advance >>= fun _ => finish cursor.span form).run cursor = _ at ran
  exact (passes_advance more).bind value ran

end Parser

namespace Plan

variable {α β : Type} {perform : Performance}

/-- The calls of one plan after another are those of the one, and those of the other from where the
first has stopped. -/
theorem Makes.of_bind {plan : Plan α} {later : α → Plan β} {cursor : Cursor} {made : Call}
    (makes : (plan >>= later).Makes perform cursor made) :
    plan.Makes perform cursor made ∨ ∃ value after,
      (plan.run perform).run cursor = .ok (value, after) ∧
      (later value).Makes perform after made := by
  induction plan generalizing cursor with
  | done value => exact .inr ⟨value, cursor, rfl, makes⟩
  | act action steady next ih =>
    cases makes with
    | @afterAct _ _ _ _ _ middle read _ ran others =>
      rcases ih read others with here | ⟨value, after, ended, behind⟩
      · exact .inl (.afterAct ran here)
      · refine .inr ⟨value, after, ?_, behind⟩
        rw [run, StateT.run_bind, ran]
        exact ended
  | call routine input next ih =>
    cases makes with
    | first => exact .inl (.first cursor)
    | @afterCall _ _ _ _ middle read _ ran others =>
      rcases ih read others with here | ⟨value, after, ended, behind⟩
      · exact .inl (.afterCall ran here)
      · refine .inr ⟨value, after, ?_, behind⟩
        rw [run, StateT.run_bind, ran]
        exact ended

/-- A run of a plan at a place makes only calls behind the place or, at the place itself, to
routines near the bottom; and if it must move, it succeeds only behind the place. -/
structure Descends (perform : Performance) (cursor : Cursor) (near : Routine → Prop) (moves : Prop)
    (plan : Plan α) : Prop where
  /-- Each call goes forward or down. -/
  made : ∀ call, plan.Makes perform cursor call →
    cursor.Precedes call.cursor ∨ call.cursor = cursor ∧ near call.routine
  /-- A token is read. -/
  passes : moves → ∀ value after, (plan.run perform).run cursor = .ok (value, after) →
    cursor.Precedes after

namespace Descends

variable [advances : perform.Advances] {cursor : Cursor} {near : Routine → Prop} {moves : Prop}

/-- Behind a token a plan may do anything. -/
theorem of_precedes {origin : Cursor} (ahead : origin.Precedes cursor) (plan : Plan α) :
    (∀ call, plan.Makes perform cursor call → origin.Precedes call.cursor) ∧
      ∀ value after, (plan.run perform).run cursor = .ok (value, after) → origin.Precedes after :=
  ⟨fun _ makes => ahead.trans (makes.reaches advances.reaches),
    fun _ _ ran => ahead.trans (reaches_of_run advances.reaches plan ran)⟩

/-- One plan after another. The second counts only where the first has read nothing. -/
theorem bind {plan : Plan α} {later : α → Plan β} (first : plan.Descends perform cursor near False)
    (second : ∀ value, (plan.run perform).run cursor = .ok (value, cursor) →
      (later value).Descends perform cursor near moves) :
    (plan >>= later).Descends perform cursor near moves where
  made call makes := by
    rcases makes.of_bind with here | ⟨value, middle, ran, behind⟩
    · exact first.made call here
    · rcases (reaches_of_run advances.reaches plan ran).eq_or_precedes with rfl | ahead
      · exact (second value ran).made call behind
      · exact .inl ((of_precedes ahead _).1 call behind)
  passes moving value after ran := by
    rw [run_bind] at ran
    rcases Parser.Steady.bind_cases ran with ⟨failure, -, failed⟩ | ⟨read, middle, begun, ended⟩
    · cases failed
    · rcases (reaches_of_run advances.reaches plan begun).eq_or_precedes with rfl | ahead
      · exact (second read begun).passes moving value after ended
      · exact (of_precedes ahead _).2 value after ended

omit advances in
/-- Nothing is done where nothing must be read. -/
theorem pure {value : α} (stays : ¬moves) :
    (Pure.pure value : Plan α).Descends perform cursor near moves where
  made _ := nofun
  passes moving := (stays moving).elim

omit advances in
/-- An action makes no call. -/
theorem lift {action : Parser α} [steady : action.Steady]
    (passes : moves → action.Passes cursor) :
    (Plan.lift action).Descends perform cursor near moves where
  made call makes := by
    cases makes with
    | afterAct _ none => cases none
  passes moving value after ran := by
    rw [run_lift] at ran
    rcases (steady.reaches ran).eq_or_precedes with rfl | ahead
    · exact (passes moving value ran).elim
    · exact ahead

/-- A call at the place goes down. -/
theorem ask {routine : Routine} {input : routine.Input} (low : near routine)
    (busy : moves → ¬routine.Idles input cursor.lexeme) :
    (Plan.ask routine input).Descends perform cursor near moves where
  made call makes := by
    cases makes with
    | first => exact .inr ⟨rfl, low⟩
    | afterCall _ none => cases none
  passes moving value after ran := by
    rw [run_ask] at ran
    exact advances.precedes ⟨routine, input, cursor⟩ value after (busy moving) ran

theorem bind_lift {action : Parser α} [action.Steady] {later : α → Plan β}
    (second : ∀ value, action.run cursor = .ok (value, cursor) →
      (later value).Descends perform cursor near moves) :
    (Plan.lift action >>= later).Descends perform cursor near moves :=
  bind (lift nofun) fun value ran => second value (by rwa [run_lift] at ran)

/-- After what reads a token everything is behind the place. -/
theorem bind_moving {plan : Plan α} {later : α → Plan β}
    (first : plan.Descends perform cursor near True) :
    (plan >>= later).Descends perform cursor near moves :=
  bind ⟨first.made, nofun⟩ fun value ran =>
    (cursor.not_precedes_self (first.passes trivial value cursor ran)).elim

theorem bind_ask {routine : Routine} {input : routine.Input} {later : routine.Output → Plan β}
    (low : near routine) (busy : ¬routine.Idles input cursor.lexeme) :
    (Plan.ask routine input >>= later).Descends perform cursor near moves :=
  bind_moving (ask low fun _ => busy)

theorem bind_passing {action : Parser α} [action.Steady] {later : α → Plan β}
    (passes : action.Passes cursor) :
    (Plan.lift action >>= later).Descends perform cursor near moves :=
  bind_moving (lift fun _ => passes)

theorem bind_here {later : Span → Plan β}
    (known : (later cursor.span).Descends perform cursor near moves) :
    (Plan.lift Parser.here >>= later).Descends perform cursor near moves :=
  bind_lift fun _ ran => by
    cases ran
    exact known

theorem bind_lexeme {later : Lexeme → Plan β}
    (known : (later cursor.lexeme).Descends perform cursor near moves) :
    (Plan.lift Parser.lexeme >>= later).Descends perform cursor near moves :=
  bind_lift fun _ ran => by
    cases ran
    exact known

theorem bind_tokens {later : List Token → Plan β}
    (known : (later cursor.tokens).Descends perform cursor near moves) :
    (Plan.lift Parser.tokens >>= later).Descends perform cursor near moves :=
  bind_lift fun _ ran => by
    cases ran
    exact known

theorem bind_atMark {later : Bool → Plan β}
    (known : (later (cursor.lexeme == .mark mark)).Descends perform cursor near moves) :
    (Plan.lift (Parser.atMark mark) >>= later).Descends perform cursor near moves :=
  bind_lift fun _ ran => by
    cases ran
    exact known

/-- After a mark that is passed everything is behind the place. -/
theorem bind_eat {later : Bool → Plan β}
    (known : cursor.lexeme ≠ .mark mark → (later false).Descends perform cursor near moves) :
    (Plan.lift (Parser.eat mark) >>= later).Descends perform cursor near moves := by
  refine bind_lift fun value ran => ?_
  obtain ⟨rfl, other⟩ := Parser.eat_cases ran
  exact known other

end Descends

end Plan

section

variable {perform : Performance} [advances : perform.Advances]

open Plan

/-- A clause reads a token, and what it calls before it has read one is below the arguments of a
call. -/
theorem Clause.descends (clause : Clause) (cursor : Cursor) :
    clause.plan.Descends perform cursor
      (fun inner => inner.depth < Routine.depth .arguments) True := by
  cases clause with
  | lambdaParam => exact .lift fun _ => Parser.passes_lambdaParam
  | access => exact .bind_here (.bind_ask (by decide) id)
  | argument =>
    refine .bind_here (.bind_lexeme ?_)
    dsimp only
    split
    · exact .bind_ask (by decide) id
    · rename_i keyword
      refine .bind_passing (Parser.passes_advance fun ended => keyword ?_)
      rw [ended]
      rfl
  | ifStmt start => exact .bind_lift fun _ _ => .bind_ask (by decide) id
  | forEach start => exact .bind_lift fun _ _ => .bind_passing Parser.passes_expect
  | localDecl start terminated => exact .bind_ask (by decide) id

namespace Routine

/-- A call made at the place of its caller goes to a routine of a smaller depth, and a routine that
may not idle reads a token. Only what a routine does before it has read one counts. -/
theorem descends (routine : Routine) (input : routine.Input) (cursor : Cursor) :
    (routine.plan input).Descends perform cursor (fun inner => inner.depth < routine.depth)
      (¬routine.Idles input cursor.lexeme) := by
  cases routine with
  | typeRef => exact .bind_here (.bind_passing Parser.passes_name)
  | typeArguments => exact .bind_ask (by decide) id
  | lambdaParams =>
    refine .bind_atMark ?_
    split
    · rename_i ended
      exact .pure (not_not_intro (beq_iff_eq.1 ended))
    · exact .bind_passing Parser.passes_lambdaParam
  | methodParams => exact .bind_here (.bind_ask (by decide) id)
  | expression =>
    refine .bind_tokens ?_
    split
    · exact .ask (by decide) fun _ => id
    · exact .ask (by decide) fun _ => id
  | assignment => exact .bind_here (.bind_ask (by decide) id)
  | lambda => exact .bind_here (.bind_eat fun _ => .bind_passing Parser.passes_lambdaParam)
  | coalesce => exact .bind_here (.bind_ask (by decide) id)
  | binary level =>
    rw [plan]
    split
    · exact .ask (by simp only [depth]; omega) fun _ => id
    · exact .bind_here (.bind_ask (by simp only [depth]; omega) id)
  | binaryRest level =>
    refine .bind_lexeme ?_
    split
    · rename_i op isOp
      split
      · exact .bind_passing (Parser.passes_advance (by simp [BinaryOp.ofLexeme?_eq_some.1 isOp]))
      · exact .pure (not_not_intro trivial)
    · exact .pure (not_not_intro trivial)
  | unary =>
    refine .bind_lexeme ?_
    split
    · rename_i op isOp
      have more : cursor.lexeme ≠ .endOfInput := by
        simp [(UnaryOp.ofLeadingLexeme?_eq_some.1 isOp).1]
      exact .bind_here (.bind_passing (Parser.passes_advance more))
    · exact .bind_here (.bind_ask (by decide) id)
  | postfixRest =>
    refine .bind_lexeme ?_
    split
    case h_7 => exact .pure (not_not_intro trivial)
    all_goals
      rename_i front
      exact .bind_passing (Parser.passes_advance (by simp [front]))
  | arguments =>
    refine .bind_atMark ?_
    split
    · rename_i ended
      exact .pure (not_not_intro (beq_iff_eq.1 ended))
    · exact .bind_moving (Clause.argument.descends cursor)
  | expressions => exact .bind_ask (by decide) id
  | primary =>
    refine .bind_lexeme ?_
    split
    case h_7 front =>
      exact .bind_here (.bind_passing (Parser.passes_advance (by simp [front])))
    case h_8 => exact .lift fun _ => Parser.passes_refuse
    all_goals
      rename_i front
      exact .lift fun _ => Parser.passes_literal (by simp [front])
  | block => exact .bind_here (.bind_passing Parser.passes_expect)
  | statements =>
    refine .bind_lexeme ?_
    split
    · rename_i front
      exact .pure (not_not_intro (.inl front))
    · rename_i front
      exact .pure (not_not_intro (.inr front))
    · exact .bind_ask (by decide) id
  | statement =>
    refine .bind_here (.bind_lexeme ?_)
    split
    case h_1 => exact .ask (by decide) fun _ => id
    case h_4 => exact .ask (by decide) fun _ => id
    case h_7 =>
      refine .bind_tokens ?_
      split
      · exact .bind_ask (by decide) id
      · exact .bind_ask (by decide) id
    all_goals
      rename_i front
      exact .bind_passing (Parser.passes_advance (by simp [front]))
  | parenthesized => exact .bind_passing Parser.passes_expect
  | optional =>
    refine .bind_atMark ?_
    split
    · rename_i ended
      exact .pure (not_not_intro (beq_iff_eq.1 ended))
    · exact .bind_ask (by decide) id
  | declarators => exact .bind_here (.bind_passing Parser.passes_name)
  | forLoop => exact .bind_here (.bind_passing Parser.passes_expectKeyword)
  | method => exact .bind_here (.bind_ask (by decide) id)
  | members =>
    refine .bind_lexeme ?_
    split
    · rename_i ended
      exact .pure (not_not_intro (beq_iff_eq.1 ended))
    · refine .bind_tokens ?_
      split
      · exact .bind_ask (by decide) id
      · exact .bind_ask (by decide) id
  | unit =>
    refine .bind (.ask (by decide) False.elim) fun members ran =>
      .bind_here (.pure fun moving => ?_)
    rw [run_ask] at ran
    exact cursor.not_precedes_self (advances.precedes ⟨.members, (), cursor⟩ _ _ moving ran)

/-- A call that its plan carries out moves forward, and past a token unless it may idle. -/
theorem advances_plan {value : call.routine.Output} {after : Cursor}
    (ran : ((call.routine.plan call.input).run perform).run call.cursor = .ok (value, after)) :
    call.cursor.Reaches after ∧ (¬call.Idles → call.cursor.Precedes after) :=
  ⟨reaches_of_run advances.reaches _ ran,
    fun busy => (descends call.routine call.input call.cursor).passes busy value after ran⟩

end Routine

end

namespace Routine

/-- A call moves forward, and past a token unless it may idle. -/
def AdvancesOn (perform : Performance) (call : Call) : Prop :=
  ∀ value after, perform.outcome call = .ok (value, after) →
    call.cursor.Reaches after ∧ (¬call.Idles → call.cursor.Precedes after)

/-- What reads a node reads a token. -/
theorem precedes_of_yieldsNode {parser : Parser SourceTerm}
    {cursor after : Cursor} {term : SourceTerm} (yields : Parser.YieldsNode cursor cursor parser)
    (ran : parser.run cursor = .ok (term, after)) :
    cursor.Precedes after := by
  obtain ⟨_, ⟨used, fills, passed⟩, rfl⟩ := yields term after ran
  exact ⟨used, fills.ne_nil (List.cons_ne_nil _ _), passed⟩

/-- A method and a unit take nothing of their bound, so that they move forward where the routines
that they call do. -/
theorem advances_of_cost {bound : Nat}
    (costly : ∀ call : Call, call.routine.cost = 1 → AdvancesOn (perform bound) call) :
    (perform bound).Advances := by
  have all (call : Call) : AdvancesOn (perform bound) call := by
    obtain ⟨routine, input, cursor⟩ := call
    by_cases cost : routine.cost = 1
    · exact costly ⟨routine, input, cursor⟩ cost
    · -- Their calls have the bound of the caller, so that the plan would lead back here.
      cases routine with
      | method =>
        intro term after ran
        have ahead := precedes_of_yieldsNode (Parser.yields_method bound cursor) ran
        exact ⟨ahead.reaches, fun _ => ahead⟩
      | unit =>
        intro term after ran
        rcases Parser.Steady.bind_cases ran with ⟨failure, -, failed⟩ | ⟨read, middle, begun, ended⟩
        · cases failed
        · cases ended
          exact costly ⟨members, (), cursor⟩ rfl read _ begun
      | _ => exact absurd rfl cost
  exact ⟨fun call value after ran => (all call value after ran).1,
    fun call value after busy ran => (all call value after ran).2 busy⟩

/-- The functions of the grammar move forward with any bound. -/
instance advances_perform (bound : Nat) : (perform bound).Advances := by
  induction bound with
  | zero =>
    -- Without a bound a routine that takes of it gives up at once.
    refine advances_of_cost fun ⟨routine, input, cursor⟩ cost value after ran => ?_
    cases routine <;> cases ran
  | succ bound ih =>
    refine advances_of_cost fun call cost value after ran => ?_
    have planned : ((call.routine.plan call.input).run (perform bound)).run call.cursor =
        .ok (value, after) := by
      rw [← perform_eq, cost]
      exact ran
    exact advances_plan planned

end Routine

/-- A bound that suffices for a call: the steps that the tokens left may take, and those down to the
bottom of the grammar. -/
def Call.demand (call : Call) : Nat :=
  Parser.stepsPerToken * call.cursor.tokens.length + call.routine.depth

namespace Routine

theorem depth_pos (routine : Routine) : 0 < routine.depth := by
  cases routine <;> simp only [depth] <;> omega

theorem depth_lt (routine : Routine) : routine.depth < Parser.stepsPerToken := by
  cases routine <;> simp only [depth, Parser.stepsPerToken, BinaryOp.tightest] <;> omega

theorem cost_le (routine : Routine) : routine.cost ≤ 1 := by
  cases routine <;> simp only [cost] <;> decide

/-- A call that is made within another demands less, by what the other takes of its bound. -/
theorem demand_of_makes {perform : Performance} [perform.Advances] {outer inner : Call}
    (makes : (outer.routine.plan outer.input).Makes perform outer.cursor inner) :
    inner.demand < outer.demand ∧ inner.demand + outer.routine.cost ≤ outer.demand := by
  have costs := outer.routine.cost_le
  have deep := outer.routine.depth_pos
  have shallow := inner.routine.depth_lt
  rcases (descends outer.routine outer.input outer.cursor).made inner makes
    with ahead | ⟨same, lower⟩
  · -- The steps of the token that was read pay for any depth.
    have fewer := ahead.length_lt
    simp only [Call.demand, Parser.stepsPerToken] at shallow ⊢
    omega
  · simp only [Call.demand, same]
    omega

/-- Bounds that suffice for a call make no difference, and with none of them it gives up. By
induction on what the call demands: the calls within it demand less, and what the call itself takes
of its bound leaves them enough. -/
theorem outcome_of_demand {first second : Nat} (enough : call.demand ≤ first)
    (also : call.demand ≤ second) :
    (perform first).outcome call = (perform second).outcome call ∧
      (perform first).outcome call ≠ .error .exhausted := by
  induction demand : call.demand using Nat.strong_induction_on generalizing call first second with
  | _ amount ih =>
    subst demand
    have cheap : call.routine.cost ≤ call.demand :=
      call.routine.cost_le.trans (call.routine.depth_pos.trans_le (Nat.le_add_left _ _))
    obtain ⟨first, rfl⟩ := Nat.exists_eq_add_of_le' (cheap.trans enough)
    obtain ⟨second, rfl⟩ := Nat.exists_eq_add_of_le' (cheap.trans also)
    have within (made : Call)
        (makes : (call.routine.plan call.input).Makes (perform first) call.cursor made) :
        (perform first).outcome made = (perform second).outcome made ∧
          (perform first).outcome made ≠ .error .exhausted := by
      obtain ⟨less, covered⟩ := demand_of_makes makes
      exact ih _ less (by omega) (by omega) rfl
    simp only [Performance.outcome, perform_eq]
    refine ⟨Plan.run_congr _ fun made makes => (within made makes).1, fun gaveUp => ?_⟩
    obtain ⟨made, makes, failed⟩ := Plan.exists_exhausted _ gaveUp
    exact (within made makes).2 failed

/-- What a routine comes to when its bound suffices. -/
def settled : Performance := fun routine input cursor =>
  (perform (Call.demand ⟨routine, input, cursor⟩) routine input).run cursor

/-- Any bound that suffices for a call is as good as another. -/
theorem outcome_perform {bound : Nat} (enough : call.demand ≤ bound) :
    (perform bound).outcome call = settled.outcome call := (outcome_of_demand enough le_rfl).1

theorem settled_ne_exhausted (call : Call) : settled.outcome call ≠ .error .exhausted :=
  (outcome_of_demand le_rfl le_rfl).2

instance advances_settled : settled.Advances where
  reaches call := (advances_perform call.demand).reaches call
  precedes call := (advances_perform call.demand).precedes call

/-- Without any bound a routine does what its plan does. -/
theorem settled_eq (call : Call) :
    settled.outcome call = ((call.routine.plan call.input).run settled).run call.cursor := by
  rw [← outcome_perform (Nat.le_add_right call.demand call.routine.cost), Performance.outcome,
    perform_eq]
  exact Plan.run_congr _ fun made makes => outcome_perform (demand_of_makes makes).1.le

end Routine

namespace Call

variable {outer inner : Call}

/-- A call makes another one while it is carried out. -/
def Makes (outer inner : Call) : Prop :=
  (outer.routine.plan outer.input).Makes Routine.settled outer.cursor inner

/-- A chain of calls goes forward, or stays at a place and goes down. -/
theorem precedes_or_lower (chain : Relation.TransGen Makes outer inner) :
    outer.cursor.Precedes inner.cursor ∨
      inner.cursor = outer.cursor ∧ inner.routine.depth < outer.routine.depth := by
  have step {caller callee : Call} (makes : caller.Makes callee) :=
    (caller.routine.descends caller.input caller.cursor).made callee makes
  induction chain with
  | single makes => exact step makes
  | tail _ makes ih =>
    rcases ih, step makes with ⟨ahead | ⟨here, low⟩, further | ⟨stays, lower⟩⟩
    · exact .inl (ahead.trans further.reaches)
    · exact .inl (stays ▸ ahead)
    · exact .inl (here ▸ further)
    · exact .inr ⟨stays.trans here, lower.trans low⟩

/-- There is no endless chain of calls. -/
theorem wellFounded_makes : WellFounded fun inner outer : Call => outer.Makes inner :=
  Subrelation.wf (fun makes => (Routine.demand_of_makes makes).1) (measure demand).wf

end Call

/-- Tokens in front of the end of the input are passed. -/
theorem Parser.exists_skip {cursor : Cursor} {used rest : List Token}
    (front : cursor.tokens = used ++ rest)
    (more : ∀ token ∈ used, token.lexeme ≠ .endOfInput) :
    ∃ after, (skip used.length).run cursor = .ok ((), after) ∧ cursor.Passed used after := by
  induction used generalizing cursor with
  | nil => exact ⟨cursor, rfl, .refl cursor⟩
  | cons token used ih =>
    obtain ⟨first, others⟩ := List.forall_mem_cons.1 more
    have same : cursor.lexeme = token.lexeme := by
      rw [Cursor.lexeme, front]
      rfl
    obtain ⟨span, passed⟩ := Cursor.passed_next same first
    obtain ⟨here, behind⟩ := List.cons.inj (front.symm.trans passed.tokens_eq)
    rw [← here] at passed
    obtain ⟨after, ran, further⟩ := ih behind.symm others
    exact ⟨after, ran, passed.trans further⟩

/-- Array suffixes are passed, two tokens at a time. -/
theorem Parser.exists_skip_rank (cursor : Cursor) :
    ∃ used after, (skip (2 * Token.rank cursor.tokens)).run cursor = .ok ((), after) ∧
      cursor.Passed used after ∧
      Token.lexemes used = Lexeme.brackets (Token.rank cursor.tokens) := by
  obtain ⟨suffixes, along, spelled⟩ := Token.exists_brackets cursor.tokens
  obtain ⟨after, ran, passed⟩ := exists_skip along (Lexeme.inside_of_brackets spelled)
  rw [Token.length_of_brackets spelled] at ran
  exact ⟨suffixes, after, ran, passed, spelled⟩

/-- A unit whose tokens are at hand is read with a bound that suffices. -/
theorem SourceTerm.ofTokens_eq (tokens : List Token) :
    ofTokens tokens = (·.1) <$> Routine.settled.outcome ⟨.unit, (), ⟨tokens, .nowhere⟩⟩ := by
  rw [← Routine.outcome_perform]
  · rfl
  · simp only [Call.demand, Routine.depth, Parser.unitBound, Parser.stepsPerToken]
    omega

/-- Reading the tokens of a unit gives a term or refuses them. -/
theorem SourceTerm.ofTokens_ne_exhausted (tokens : List Token) :
    ofTokens tokens ≠ .error .exhausted := by
  intro gaveUp
  rw [ofTokens_eq] at gaveUp
  match ran : Routine.settled.outcome ⟨.unit, (), ⟨tokens, .nowhere⟩⟩ with
  | .ok _ =>
    rw [ran] at gaveUp
    cases gaveUp
  | .error failure =>
    rw [ran] at gaveUp
    cases gaveUp
    exact Routine.settled_ne_exhausted _ ran

/-- Reading makes progress and comes to an end.

With any bound, a call that succeeds has moved forward over tokens in front of the end of the input,
over none of them only where it may idle: at the end of a list, of which an empty unit is one, or
where what continues an operand finds nothing to continue. What stands within a routine always reads
a token.

A chain of calls that comes back to a routine has read a token since, so that each round of a loop,
which is a routine that calls itself, reads one; the array suffixes of a type are passed two tokens
at a time. Between the levels of binary operations, which are read in the same way, a chain that has
read nothing has gone to a tighter level. So there is no endless chain, a bound that suffices for a
call makes no difference to it, and every text is read as a term or refused. -/
theorem reading_progresses :
    (∀ bound call value after, (Routine.perform bound).outcome call = .ok (value, after) →
      ∃ used, call.cursor.Passed used after ∧ (used = [] → call.Idles)) ∧
    (∀ bound (clause : Clause) cursor value after,
      (clause.plan.run (Routine.perform bound)).run cursor = .ok (value, after) →
        cursor.Precedes after) ∧
    (∀ outer inner, Relation.TransGen Call.Makes outer inner →
      (inner.routine = outer.routine → outer.cursor.Precedes inner.cursor) ∧
      ∀ level tighter, outer.routine = .binary level → inner.routine = .binary tighter →
        outer.cursor.Precedes inner.cursor ∨ level < tighter) ∧
    (∀ cursor, ∃ used after,
      (Parser.skip (2 * Token.rank cursor.tokens)).run cursor = .ok ((), after) ∧
        cursor.Passed used after ∧
        Token.lexemes used = Lexeme.brackets (Token.rank cursor.tokens)) ∧
    (WellFounded fun inner outer : Call => outer.Makes inner) ∧
    (∀ call, Routine.settled.outcome call =
      ((call.routine.plan call.input).run Routine.settled).run call.cursor) ∧
    (∀ bound call, call.demand ≤ bound →
      (Routine.perform bound).outcome call = Routine.settled.outcome call ∧
        Routine.settled.outcome call ≠ .error .exhausted) ∧
    (∀ tokens, SourceTerm.ofTokens tokens =
      (·.1) <$> Routine.settled.outcome ⟨.unit, (), ⟨tokens, .nowhere⟩⟩) ∧
    ∀ source, (∃ term, SourceTerm.parse source = .ok term) ∨
      ∃ error, SourceTerm.parse source = .error (.refused error) := by
  refine ⟨fun bound call value after ran => ?_, fun bound clause cursor value after ran => ?_,
    fun outer inner chain => ⟨fun same => ?_, fun level tighter fromLevel toLevel => ?_⟩,
    Parser.exists_skip_rank, Call.wellFounded_makes, Routine.settled_eq,
    fun bound call enough => ⟨Routine.outcome_perform enough, Routine.settled_ne_exhausted call⟩,
    SourceTerm.ofTokens_eq, fun source => ?_⟩
  · by_cases idles : call.Idles
    · obtain ⟨used, passed⟩ := (Routine.advances_perform bound).reaches call value after ran
      exact ⟨used, passed, fun _ => idles⟩
    · obtain ⟨used, some, passed⟩ :=
        (Routine.advances_perform bound).precedes call value after idles ran
      exact ⟨used, passed, fun none => absurd none some⟩
  · exact (clause.descends cursor).passes trivial value after ran
  · rcases Call.precedes_or_lower chain with ahead | ⟨-, lower⟩
    · exact ahead
    · rw [same] at lower
      exact absurd lower (Nat.lt_irrefl _)
  · refine (Call.precedes_or_lower chain).imp_right fun ⟨_, lower⟩ => ?_
    rw [fromLevel, toLevel] at lower
    simp only [Routine.depth] at lower
    omega
  · match ran : SourceTerm.parse source with
    | .ok term => exact .inl ⟨term, rfl⟩
    | .error (.refused error) => exact .inr ⟨error, rfl⟩
    | .error .exhausted =>
      rw [SourceTerm.parse] at ran
      split at ran
      · exact (SourceTerm.ofTokens_ne_exhausted _ ran).elim
      · cases ran

end Refactory
