import Refactory.Proofs.Grammar.Occupation

/-!
# Plans

The functions of the grammar call one another. A `Plan` is what such a function does with its calls
left open: it acts on the cursor by itself, it calls a routine, and it goes on with what either
gives. Once it is said how routines perform (`Performance`), a plan runs as a parser (`Plan.run`),
and the calls that a run makes are known one by one (`Plan.Makes`).

Actions of a plan only move forward and never give up (`Parser.Steady`). So a run of a plan moves
forward if its routines do, it gives up only where a call does (`Plan.exists_exhausted`), and it
rests on its routines only at the calls that it makes (`Plan.run_congr`). All of this is by
induction on the plan; nothing needs to be known of the grammar.
-/
namespace Refactory

namespace Cursor

variable {origin middle cursor : Cursor}

/-- A cursor stands at a place or behind it, and no end of the input in between. -/
def Reaches (origin cursor : Cursor) : Prop := ∃ used, origin.Passed used cursor

/-- A cursor stands behind a place by at least one token, and no end of the input in between. -/
def Precedes (origin cursor : Cursor) : Prop := ∃ used, used ≠ [] ∧ origin.Passed used cursor

theorem Reaches.refl (cursor : Cursor) : cursor.Reaches cursor := ⟨[], .refl cursor⟩

theorem Reaches.trans (first : origin.Reaches middle) (second : middle.Reaches cursor) :
    origin.Reaches cursor := by
  obtain ⟨used, passed⟩ := first
  obtain ⟨others, further⟩ := second
  exact ⟨used ++ others, passed.trans further⟩

theorem Precedes.reaches (ahead : origin.Precedes cursor) : origin.Reaches cursor :=
  ahead.imp fun _ => And.right

theorem Precedes.trans (first : origin.Precedes middle) (second : middle.Reaches cursor) :
    origin.Precedes cursor := by
  obtain ⟨used, some, passed⟩ := first
  obtain ⟨others, further⟩ := second
  exact ⟨used ++ others, List.append_ne_nil_of_left_ne_nil some _, passed.trans further⟩

/-- Where no token was passed nothing has changed. -/
theorem Reaches.eq_or_precedes (reaches : origin.Reaches cursor) :
    cursor = origin ∨ origin.Precedes cursor := by
  obtain ⟨used, passed⟩ := reaches
  rcases used with - | ⟨token, used⟩
  · obtain ⟨tokens, previous⟩ := origin
    obtain ⟨rest, last⟩ := cursor
    have tokens_eq := passed.tokens_eq
    have previous_eq := passed.previous_eq
    simp only [List.nil_append, List.getLast?_nil, Option.map_none, Option.getD_none]
      at tokens_eq previous_eq
    exact .inl (by rw [tokens_eq, previous_eq])
  · exact .inr ⟨_, List.cons_ne_nil _ _, passed⟩

/-- Fewer tokens are left behind a place. -/
theorem Precedes.length_lt (ahead : origin.Precedes cursor) :
    cursor.tokens.length < origin.tokens.length := by
  obtain ⟨used, some, passed⟩ := ahead
  have positive := List.length_pos_iff.2 some
  rw [passed.tokens_eq, List.length_append]
  omega

/-- The token in front is passed unless it is the end of the input. -/
theorem precedes_next (more : cursor.lexeme ≠ .endOfInput) : cursor.Precedes cursor.next := by
  obtain ⟨span, passed⟩ := passed_next rfl more
  exact ⟨_, List.cons_ne_nil _ _, passed⟩

theorem reaches_next (cursor : Cursor) : cursor.Reaches cursor.next := by
  by_cases more : cursor.lexeme = .endOfInput
  · have stays : cursor.next = cursor := by
      obtain ⟨tokens, previous⟩ := cursor
      match tokens, more with
      | [], _ => rfl
      | _ :: _, more => exact if_pos more
    rw [stays]
    exact .refl cursor
  · exact (precedes_next more).reaches

end Cursor

namespace Parser

variable {α β : Type}

/-- An action that only moves forward, and never gives up for want of a bound. -/
class Steady (action : Parser α) : Prop where
  /-- No token is read twice. -/
  reaches : ∀ {cursor value after}, action.run cursor = .ok (value, after) → cursor.Reaches after
  /-- It gives a value or refuses the program. -/
  settles : ∀ cursor, action.run cursor ≠ .error .exhausted

namespace Steady

theorem bind_cases {first : Parser α} {next : α → Parser β} {cursor : Cursor}
    {outcome : Except Failure (β × Cursor)} (ran : (first >>= next).run cursor = outcome) :
    (∃ failure, first.run cursor = .error failure ∧ outcome = .error failure) ∨ ∃ value middle,
      first.run cursor = .ok (value, middle) ∧ (next value).run middle = outcome := by
  rw [StateT.run_bind] at ran
  match here : first.run cursor with
  | .error failure =>
    rw [here] at ran
    exact .inl ⟨failure, rfl, ran.symm⟩
  | .ok (value, middle) =>
    rw [here] at ran
    exact .inr ⟨value, middle, rfl, ran⟩

instance pure (value : α) : Steady (pure value : Parser α) where
  reaches := by
    rintro cursor _ _ ⟨⟩
    exact .refl cursor
  settles _ := nofun

instance bind (first : Parser α) (next : α → Parser β) [Steady first]
    [∀ value, Steady (next value)] :
    Steady (first >>= next) where
  reaches := by
    intro cursor value after ran
    rcases bind_cases ran with ⟨failure, -, failed⟩ | ⟨read, middle, first, second⟩
    · cases failed
    · exact (reaches first).trans (reaches second)
  settles := by
    intro cursor ran
    rcases bind_cases ran with ⟨failure, failed, same⟩ | ⟨read, middle, first, second⟩
    · cases same
      exact settles cursor failed
    · exact settles middle second

instance either (condition : Prop) [Decidable condition] (yes no : Parser α) [Steady yes]
    [Steady no] :
    Steady (if condition then yes else no) := by
  split <;> infer_instance

instance lexeme : Steady Parser.lexeme where
  reaches := by
    rintro cursor _ _ ⟨⟩
    exact .refl cursor
  settles _ := nofun

instance here : Steady Parser.here where
  reaches := by
    rintro cursor _ _ ⟨⟩
    exact .refl cursor
  settles _ := nofun

instance tokens : Steady Parser.tokens where
  reaches := by
    rintro cursor _ _ ⟨⟩
    exact .refl cursor
  settles _ := nofun

instance advance : Steady Parser.advance where
  reaches := by
    rintro cursor _ _ ⟨⟩
    exact Cursor.reaches_next cursor
  settles _ := nofun

instance refuse (wanted : Expectation) : Steady (Parser.refuse wanted : Parser α) where
  reaches := nofun
  settles _ := nofun

instance finish (start : Span) (form : Term.Form Span) : Steady (Parser.finish start form) where
  reaches := by
    rintro cursor _ _ ⟨⟩
    exact .refl cursor
  settles _ := nofun

instance atMark (mark : Mark) : Steady (Parser.atMark mark) := by
  rw [Parser.atMark]
  infer_instance

instance eat (mark : Mark) : Steady (Parser.eat mark) := by
  rw [Parser.eat]
  infer_instance

instance expect (mark : Mark) : Steady (Parser.expect mark) := by
  rw [Parser.expect]
  infer_instance

instance expectKeyword (word : Keyword) : Steady (Parser.expectKeyword word) := by
  rw [Parser.expectKeyword]
  infer_instance

instance eatElse : Steady Parser.eatElse := by
  rw [Parser.eatElse]
  infer_instance

instance name : Steady Parser.name := by
  rw [Parser.name]
  have known (lexeme : Lexeme) : Steady (match lexeme with
      | .identifier name => do
        Parser.advance
        return name
      | _ => Parser.refuse .identifier) := by
    split <;> infer_instance
  infer_instance

instance skip (count : Nat) : Steady (Parser.skip count) := by
  induction count with
  | zero => exact pure ()
  | succ count ih =>
    rw [Parser.skip]
    infer_instance

instance literal (form : Term.Form Span) : Steady (Parser.literal form) := by
  rw [Parser.literal]
  infer_instance

instance lambdaParam : Steady Parser.lambdaParam := by
  rw [Parser.lambdaParam]
  infer_instance

end Steady

end Parser

/-- The functions of the grammar that call one another. Each level of binary operations has its own
ones. -/
inductive Routine where
  | typeRef
  | typeArguments
  | lambdaParams
  | methodParams
  | expression
  | assignment
  | lambda
  | coalesce
  | binary (level : Nat)
  | binaryRest (level : Nat)
  | unary
  | postfixRest
  | arguments
  | expressions
  | primary
  | block
  | statements
  | statement
  | parenthesized
  | optional
  | declarators
  | forLoop
  | method
  | members
  | unit
deriving DecidableEq

namespace Routine

/-- What a routine is given: where an operand starts and the operand itself, for those that go on
after one, and the mark that ends an expression, for that which reads one if there is one. -/
abbrev Input : Routine → Type
  | binaryRest _ | postfixRest => Span × SourceTerm
  | optional => Mark
  | _ => Unit

/-- What a routine gives. -/
abbrev Output : Routine → Type
  | typeArguments | lambdaParams | methodParams | arguments | expressions | statements | declarators
  | members => List SourceTerm
  | optional => Option SourceTerm
  | _ => SourceTerm

end Routine

/-- A call of a routine at a place. -/
structure Call where
  /-- The routine that is called. -/
  routine : Routine
  /-- What it is given. -/
  input : routine.Input
  /-- Where it starts. -/
  cursor : Cursor

/-- How each routine performs. -/
abbrev Performance := (routine : Routine) → routine.Input → Parser routine.Output

/-- What a call comes to. -/
def Performance.outcome (perform : Performance) (call : Call) :
    Except Failure (call.routine.Output × Cursor) :=
  (perform call.routine call.input).run call.cursor

/-- What a routine does, with its calls left open. -/
inductive Plan (α : Type) : Type 1 where
  /-- Nothing more is done. -/
  | done (value : α)
  /-- An action of the plan itself. -/
  | act {β : Type} (action : Parser β) (steady : action.Steady) (next : β → Plan α)
  /-- A call. -/
  | call (routine : Routine) (input : routine.Input) (next : routine.Output → Plan α)

namespace Plan

variable {α β : Type}

/-- One plan after another. -/
def bind : Plan α → (α → Plan β) → Plan β
  | done value, later => later value
  | act action steady next, later => act action steady fun value => (next value).bind later
  | call routine input next, later => call routine input fun value => (next value).bind later

instance : Monad Plan where
  pure := done
  bind := bind

/-- A plan of one action. -/
def lift (action : Parser α) [steady : action.Steady] : Plan α := act action steady done

/-- A plan of one call. -/
def ask (routine : Routine) (input : routine.Input) : Plan routine.Output := call routine input done

/-- The parser that a plan is when its calls are performed in a certain way. -/
def run (perform : Performance) : Plan α → Parser α
  | done value => pure value
  | act action _ next => action >>= fun value => (next value).run perform
  | call routine input next => perform routine input >>= fun value => (next value).run perform

section

variable (perform : Performance)

@[simp] theorem run_pure (value : α) : (pure value : Plan α).run perform = pure value := rfl

@[simp] theorem run_bind (plan : Plan α) (later : α → Plan β) :
    (plan >>= later).run perform = plan.run perform >>= fun value => (later value).run perform := by
  induction plan with
  | done value =>
    change (later value).run perform = (pure value >>= fun value => (later value).run perform)
    rw [pure_bind]
  | act action steady next ih =>
    change (action >>= fun value => (next value >>= later).run perform) = _
    rw [run, bind_assoc]
    exact bind_congr ih
  | call routine input next ih =>
    change (perform routine input >>= fun value => (next value >>= later).run perform) = _
    rw [run, bind_assoc]
    exact bind_congr ih

@[simp] theorem run_map (f : α → β) (plan : Plan α) :
    (f <$> plan).run perform = f <$> plan.run perform :=
  (run_bind perform plan fun value => done (f value)).trans (map_eq_pure_bind f _).symm

@[simp] theorem run_lift (action : Parser α) [action.Steady] : (lift action).run perform = action :=
  bind_pure action

@[simp] theorem run_ask (routine : Routine) (input : routine.Input) :
    @run (no_index routine.Output) perform (ask routine input) = perform routine input :=
    bind_pure _

@[simp] theorem run_ite (condition : Prop) [Decidable condition] (yes no : Plan α) :
    (if condition then yes else no).run perform =
      if condition then yes.run perform else no.run perform := by
  split <;> rfl

end

/-- The calls that a run of a plan makes when they are performed in a certain way. -/
inductive Makes (perform : Performance) : Plan α → Cursor → Call → Prop
  /-- The first call. -/
  | first {routine : Routine} {input : routine.Input} {next : routine.Output → Plan α}
      (cursor : Cursor) : Makes perform (call routine input next) cursor ⟨routine, input, cursor⟩
  /-- A call after another one. -/
  | afterCall {routine : Routine} {input : routine.Input} {next : routine.Output → Plan α}
      {cursor after : Cursor} {value : routine.Output} {made : Call}
      (ran : (perform routine input).run cursor = .ok (value, after))
      (later : Makes perform (next value) after made) :
      Makes perform (call routine input next) cursor made
  /-- A call after an action. -/
  | afterAct {γ : Type} {action : Parser γ} {steady : action.Steady} {next : γ → Plan α}
      {cursor after : Cursor} {value : γ} {made : Call}
      (ran : action.run cursor = .ok (value, after))
      (later : Makes perform (next value) after made) :
      Makes perform (act action steady next) cursor made

variable {perform : Performance}

/-- A run of a plan moves forward if its calls do. -/
theorem reaches_of_run (forward : ∀ call value after,
      perform.outcome call = .ok (value, after) → call.cursor.Reaches after)
    (plan : Plan α) {cursor after : Cursor} {value : α}
    (ran : (plan.run perform).run cursor = .ok (value, after)) : cursor.Reaches after := by
  induction plan generalizing cursor with
  | done value =>
    cases ran
    exact .refl _
  | act action steady next ih =>
    rcases Parser.Steady.bind_cases ran with ⟨failure, -, failed⟩ | ⟨read, middle, first, second⟩
    · cases failed
    · exact (steady.reaches first).trans (ih read second)
  | call routine input next ih =>
    rcases Parser.Steady.bind_cases ran with ⟨failure, -, failed⟩ | ⟨read, middle, first, second⟩
    · cases failed
    · exact (forward ⟨routine, input, cursor⟩ _ _ first).trans (ih read second)

/-- The calls of a run are made at its place or behind it. -/
theorem Makes.reaches (forward : ∀ call value after,
      perform.outcome call = .ok (value, after) → call.cursor.Reaches after)
    {plan : Plan α} {cursor : Cursor} {made : Call} (makes : plan.Makes perform cursor made) :
    cursor.Reaches made.cursor := by
  induction makes with
  | first cursor => exact .refl cursor
  | afterCall ran _ ih => exact (forward ⟨_, _, _⟩ _ _ ran).trans ih
  | @afterAct _ action steady _ _ _ _ _ ran _ ih => exact (steady.reaches ran).trans ih

/-- A run gives up only where one of its calls does. -/
theorem exists_exhausted (plan : Plan α) {cursor : Cursor}
    (ran : (plan.run perform).run cursor = .error .exhausted) :
    ∃ made, plan.Makes perform cursor made ∧ perform.outcome made = .error .exhausted := by
  induction plan generalizing cursor with
  | done value => cases ran
  | act action steady next ih =>
    rcases Parser.Steady.bind_cases ran with ⟨failure, failed, same⟩ | ⟨read, middle, first, second⟩
    · cases same
      exact (steady.settles cursor failed).elim
    · obtain ⟨made, makes, gaveUp⟩ := ih read second
      exact ⟨made, .afterAct first makes, gaveUp⟩
  | call routine input next ih =>
    rcases Parser.Steady.bind_cases ran with ⟨failure, failed, same⟩ | ⟨read, middle, first, second⟩
    · cases same
      exact ⟨_, .first cursor, failed⟩
    · obtain ⟨made, makes, gaveUp⟩ := ih read second
      exact ⟨made, .afterCall first makes, gaveUp⟩

/-- A run depends on how routines perform only at the calls that it makes. -/
theorem run_congr {others : Performance} (plan : Plan α) {cursor : Cursor}
    (same : ∀ made, plan.Makes perform cursor made → perform.outcome made = others.outcome made) :
    (plan.run perform).run cursor = (plan.run others).run cursor := by
  induction plan generalizing cursor with
  | done value => rfl
  | act action steady next ih =>
    rw [run, run, StateT.run_bind, StateT.run_bind]
    match ran : action.run cursor with
    | .error failure => rfl
    | .ok (value, after) => exact ih value fun made makes => same made (.afterAct ran makes)
  | call routine input next ih =>
    rw [run, run, StateT.run_bind, StateT.run_bind,
      ← show (perform routine input).run cursor = (others routine input).run cursor from
        same _ (.first cursor)]
    match ran : (perform routine input).run cursor with
    | .error failure => rfl
    | .ok (value, after) => exact ih value fun made makes => same made (.afterCall ran makes)

end Plan

end Refactory
