import Refactory.Proofs.Grammar.Parser
import Refactory.Proofs.Grammar.Lookahead

/-!
# Running parsers

`Parser.Meets` states what a parser does to the tokens in front of it: what holds of its result and
of the tokens after it, what must hold where it refuses the program, and what must hold where its
bound runs out. Statements about the steps of a parser compose to one about the whole
(`Parser.Meets.bind`), so that each function of the grammar needs to be opened once for each thing
that is proved about it.
-/
namespace Refactory

variable {kind : Term.Form Span} {token : Token} {mark : Mark}

namespace Parser

variable {α β γ : Type}

/-- What a run of a parser in front of tokens comes to: a result, a refusal or exhaustion. -/
def Meets (parser : Parser α) (tokens : List Token) (result : α → List Token → Prop)
    (refusal exhaustion : Prop) : Prop :=
  ∀ previous, match parser.run ⟨tokens, previous⟩ with
    | .ok (value, cursor) => result value cursor.tokens
    | .error (.refused _) => refusal
    | .error .exhausted => exhaustion

namespace Meets

variable {parser : Parser α} {tokens : List Token} {result : α → List Token → Prop}
  {refusal exhaustion : Prop}

/-- What a parser comes to may be described less exactly. -/
theorem mono {result' : α → List Token → Prop} {refusal' exhaustion' : Prop}
    (meets : Meets parser tokens result refusal exhaustion)
    (results : ∀ value rest, result value rest → result' value rest)
    (refusals : refusal → refusal') (exhaustions : exhaustion → exhaustion') :
    Meets parser tokens result' refusal' exhaustion' := by
  intro previous
  have outcome := meets previous
  revert outcome
  split <;> intro outcome
  · exact results _ _ outcome
  · exact refusals outcome
  · exact exhaustions outcome

theorem pure {value : α} (known : result value tokens) :
    Meets (pure value) tokens result refusal exhaustion := fun _ => known

/-- One parser after another. -/
theorem bind {next : α → Parser β} {result' : β → List Token → Prop}
    (first : Meets parser tokens result refusal exhaustion)
    (second : ∀ value rest, result value rest →
      Meets (next value) rest result' refusal exhaustion) :
    Meets (parser >>= next) tokens result' refusal exhaustion := by
  intro previous
  have outcome := first previous
  rw [StateT.run_bind]
  revert outcome
  split <;> intro outcome
  · rename_i value cursor ran
    rw [ran]
    exact second value cursor.tokens outcome cursor.previous
  · rename_i error ran
    rw [ran]
    exact outcome
  · rename_i ran
    rw [ran]
    exact outcome

/-- One parser after another, of which the first runs out of its bound in fewer cases. -/
theorem bind_call {next : α → Parser β} {result' : β → List Token → Prop} {exhaustion' : Prop}
    (first : Meets parser tokens result refusal exhaustion) (fewer : exhaustion → exhaustion')
    (second : ∀ value rest, result value rest →
      Meets (next value) rest result' refusal exhaustion') :
    Meets (parser >>= next) tokens result' refusal exhaustion' :=
  (first.mono (fun _ _ known => known) id fewer).bind second

theorem map {f : α → β} {result' : β → List Token → Prop}
    (first : Meets parser tokens result refusal exhaustion)
    (second : ∀ value rest, result value rest → result' (f value) rest) :
    Meets (f <$> parser) tokens result' refusal exhaustion := by
  rw [map_eq_pure_bind]
  exact first.bind fun value rest known => .pure (second value rest known)

theorem exhausted (known : exhaustion) :
    Meets (Parser.exhausted : Parser α) tokens result refusal exhaustion := fun _ => known

/-- A bound that runs out is left aside, so there is one more for what is read first. -/
theorem bounded {run : Nat → Parser α} (none : run 0 = Parser.exhausted)
    (some : ∀ bound, Meets (run (bound + 1)) tokens result refusal True) (bound : Nat) :
    Meets (run bound) tokens result refusal True := by
  cases bound with
  | zero => exact none ▸ exhausted trivial
  | succ bound => exact some bound

theorem refuse {wanted : Expectation} (known : refusal) :
    Meets (Parser.refuse wanted : Parser α) tokens result refusal exhaustion := fun _ => known

theorem finish {start : Span} {result : SourceTerm → List Token → Prop}
    (known : ∀ span, result (.node span kind) tokens) :
    Meets (Parser.finish start kind) tokens result refusal exhaustion := fun _ => known _

/-- A token that is not the end of the input is passed. -/
theorem advance {rest : List Token} {result : Unit → List Token → Prop}
    (more : token.lexeme ≠ .endOfInput) (known : result () rest) :
    Meets Parser.advance (token :: rest) result refusal exhaustion := by
  intro previous
  have ran : Parser.advance.run ⟨token :: rest, previous⟩
      = .ok ((), Cursor.next ⟨token :: rest, previous⟩) := rfl
  rw [ran]
  simpa only [Cursor.next, if_neg more] using known

theorem bind_lexeme {next : Lexeme → Parser α}
    (known : Meets (next (Token.first tokens)) tokens result refusal exhaustion) :
    Meets (Parser.lexeme >>= next) tokens result refusal exhaustion :=
    fun previous => known previous

theorem bind_here {next : Span → Parser α}
    (known : ∀ span, Meets (next span) tokens result refusal exhaustion) :
    Meets (Parser.here >>= next) tokens result refusal exhaustion :=
  fun previous => known _ previous

theorem bind_tokens {next : List Token → Parser α}
    (known : Meets (next tokens) tokens result refusal exhaustion) :
    Meets (Parser.tokens >>= next) tokens result refusal exhaustion :=
    fun previous => known previous

theorem bind_finish {start : Span} {next : SourceTerm → Parser α}
    (known : ∀ span, Meets (next (.node span kind)) tokens result refusal exhaustion) :
    Meets (Parser.finish start kind >>= next) tokens result refusal exhaustion :=
  fun previous => known _ previous

theorem bind_atMark {next : Bool → Parser α}
    (known : Meets (next (Token.first tokens == .mark mark)) tokens result refusal exhaustion) :
    Meets (Parser.atMark mark >>= next) tokens result refusal exhaustion :=
  fun previous => known previous

theorem bind_advance {rest : List Token} {next : Unit → Parser α}
    (more : token.lexeme ≠ .endOfInput) (known : Meets (next ()) rest result refusal exhaustion) :
    Meets (Parser.advance >>= next) (token :: rest) result refusal exhaustion :=
  bind (advance more rfl : Meets _ _ (fun _ after => after = rest) _ _) fun _ _ same => same ▸ known

/-- A result that is only passed on in another form. -/
theorem bind_map {f : β → γ} {parser : Parser β} {next : γ → Parser α}
    (known : Meets (parser >>= fun value => next (f value)) tokens result refusal exhaustion) :
    Meets (f <$> parser >>= next) tokens result refusal exhaustion := by
  rwa [bind_map_left]

/-- Nothing is done where a parser is not wanted. -/
theorem bind_pure {β : Type} {value : β} {next : β → Parser α}
    (known : Meets (next value) tokens result refusal exhaustion) :
    Meets (Pure.pure value >>= next) tokens result refusal exhaustion := by
  rwa [pure_bind]

/-- Tokens that start with a lexeme start with a token of it. -/
theorem exists_of_first {tokens : List Token} {lexeme : Lexeme} (more : lexeme ≠ .endOfInput)
    (same : Token.first tokens = lexeme) : ∃ span rest, tokens = ⟨lexeme, span⟩ :: rest := by
  match tokens, same with
  | [], same => exact absurd same.symm more
  | ⟨_, span⟩ :: rest, rfl => exact ⟨span, rest, rfl⟩

/-- A mark is passed if it is in front. -/
theorem bind_eat {next : Bool → Parser α}
    (yes : ∀ span rest, tokens = ⟨.mark mark, span⟩ :: rest →
      Meets (next true) rest result refusal exhaustion)
    (no : Token.first tokens ≠ .mark mark → Meets (next false) tokens result refusal exhaustion) :
    Meets (Parser.eat mark >>= next) tokens result refusal exhaustion := by
  rw [Parser.eat, bind_assoc]
  refine bind_atMark ?_
  split
  · rename_i same
    obtain ⟨span, rest, rfl⟩ := exists_of_first (by simp) (beq_iff_eq.1 same)
    rw [bind_assoc]
    exact bind_advance (by simp) (bind_pure (yes span rest rfl))
  · rename_i other
    exact bind_pure (no fun same => other (by simp [same]))

/-- A mark that must be in front is passed. -/
theorem bind_expect {next : Unit → Parser α}
    (yes : ∀ span rest, tokens = ⟨.mark mark, span⟩ :: rest →
      Meets (next ()) rest result refusal exhaustion)
    (no : Token.first tokens ≠ .mark mark → refusal) :
    Meets (Parser.expect mark >>= next) tokens result refusal exhaustion := by
  rw [Parser.expect, bind_assoc]
  refine bind_eat (fun span rest same => ?_) fun other => ?_
  · exact bind_pure (yes span rest same)
  · exact bind (refuse (no other) : Meets _ _ (fun _ _ => False) _ _) fun _ _ known => known.elim

/-- A keyword that must be in front is passed. -/
theorem bind_expectKeyword {word : Keyword} {next : Unit → Parser α}
    (yes : ∀ span rest, tokens = ⟨.keyword word, span⟩ :: rest →
      Meets (next ()) rest result refusal exhaustion)
    (no : Token.first tokens ≠ .keyword word → refusal) :
    Meets (Parser.expectKeyword word >>= next) tokens result refusal exhaustion := by
  rw [Parser.expectKeyword, bind_assoc]
  refine bind_lexeme ?_
  split
  · rename_i same
    obtain ⟨span, rest, rfl⟩ := exists_of_first (by simp) (beq_iff_eq.1 same)
    exact bind_advance (by simp) (yes span rest rfl)
  · rename_i other
    exact bind (refuse (no fun same => other (by simp [same])) : Meets _ _ (fun _ _ => False) _ _)
      fun _ _ known => known.elim

/-- An identifier that must be in front is passed. -/
theorem bind_name {next : String → Parser α}
    (yes : ∀ name span rest, tokens = ⟨.identifier name, span⟩ :: rest →
      Meets (next name) rest result refusal exhaustion)
    (no : (∀ name, Token.first tokens ≠ .identifier name) → refusal) :
    Meets (Parser.name >>= next) tokens result refusal exhaustion := by
  rw [Parser.name, bind_assoc]
  refine bind_lexeme ?_
  split
  · rename_i name same
    obtain ⟨span, rest, rfl⟩ := exists_of_first (by simp) same
    rw [bind_assoc]
    exact bind_advance (by simp) (bind_pure (yes name span rest rfl))
  · rename_i other
    exact bind (refuse (no fun name same => other name same) : Meets _ _ (fun _ _ => False) _ _)
      fun _ _ known => known.elim

/-- The keyword of an else branch is passed if it is in front. -/
theorem bind_eatElse {next : Bool → Parser α}
    (yes : ∀ span rest, tokens = ⟨.keyword .else, span⟩ :: rest →
      Meets (next true) rest result refusal exhaustion) (no : Token.first tokens ≠ .keyword .else →
      Meets (next false) tokens result refusal exhaustion) :
    Meets (Parser.eatElse >>= next) tokens result refusal exhaustion := by
  rw [Parser.eatElse, bind_assoc]
  refine bind_lexeme ?_
  split
  · rename_i same
    obtain ⟨span, rest, rfl⟩ := exists_of_first (by simp) (beq_iff_eq.1 same)
    rw [bind_assoc]
    exact bind_advance (by simp) (bind_pure (yes span rest rfl))
  · rename_i other
    exact bind_pure (no fun same => other (by simp [same]))

section

variable {span : Span} {rest : List Token}

/-- A mark that is in front is passed. -/
theorem bind_eat_mark {next : Bool → Parser α}
    (known : Meets (next true) rest result refusal exhaustion) :
    Meets (Parser.eat mark >>= next) (⟨.mark mark, span⟩ :: rest) result refusal exhaustion :=
  bind_eat (fun _ _ same => (List.cons.inj same).2 ▸ known) fun other => absurd rfl other

/-- A mark that is not in front is not passed. -/
theorem bind_eat_other {next : Bool → Parser α}
    (other : Token.first tokens ≠ .mark mark)
    (known : Meets (next false) tokens result refusal exhaustion) :
    Meets (Parser.eat mark >>= next) tokens result refusal exhaustion :=
  bind_eat (fun _ _ same => absurd (same ▸ rfl) other) fun _ => known

theorem bind_expect_mark {next : Unit → Parser α}
    (known : Meets (next ()) rest result refusal exhaustion) :
    Meets (Parser.expect mark >>= next) (⟨.mark mark, span⟩ :: rest) result refusal exhaustion :=
  bind_expect (fun _ _ same => (List.cons.inj same).2 ▸ known) fun other => absurd rfl other

theorem bind_expectKeyword_keyword {word : Keyword} {next : Unit → Parser α}
    (known : Meets (next ()) rest result refusal exhaustion) :
    Meets (Parser.expectKeyword word >>= next) (⟨.keyword word, span⟩ :: rest) result refusal
      exhaustion :=
  bind_expectKeyword (fun _ _ same => (List.cons.inj same).2 ▸ known) fun other => absurd rfl other

theorem bind_name_identifier {name : String} {next : String → Parser α}
    (known : Meets (next name) rest result refusal exhaustion) :
    Meets (Parser.name >>= next) (⟨.identifier name, span⟩ :: rest) result refusal exhaustion :=
  bind_name (fun _ _ _ same => by cases same; exact known) fun other => absurd rfl (other name)

theorem bind_eatElse_keyword {next : Bool → Parser α}
    (known : Meets (next true) rest result refusal exhaustion) :
    Meets (Parser.eatElse >>= next) (⟨.keyword .else, span⟩ :: rest) result refusal exhaustion :=
  bind_eatElse (fun _ _ same => (List.cons.inj same).2 ▸ known) fun other => absurd rfl other

theorem bind_eatElse_other {next : Bool → Parser α}
    (other : Token.first tokens ≠ .keyword .else)
    (known : Meets (next false) tokens result refusal exhaustion) :
    Meets (Parser.eatElse >>= next) tokens result refusal exhaustion :=
  bind_eatElse (fun _ _ same => absurd (same ▸ rfl) other) fun _ => known

end

/-- Tokens before the end of the input are passed. -/
theorem bind_skip {used rest : List Token} {next : Unit → Parser α}
    (more : ∀ token ∈ used, token.lexeme ≠ .endOfInput)
    (known : Meets (next ()) rest result refusal exhaustion) :
    Meets (Parser.skip used.length >>= next) (used ++ rest) result refusal exhaustion := by
  induction used with
  | nil => exact bind_pure known
  | cons token used ih =>
    rw [List.length_cons, Parser.skip, bind_assoc]
    exact bind_advance (more token (.head _)) (ih fun other member => more other (.tail _ member))

/-- Array suffixes in front are passed. -/
theorem bind_rank {next : Unit → Parser α}
    (known : Meets (next ()) (Token.pastRank tokens) result refusal exhaustion) :
    Meets (Parser.skip (2 * Token.rank tokens) >>= next) tokens result refusal exhaustion := by
  obtain ⟨suffixes, along, spelled⟩ := Token.exists_brackets tokens
  have passed := bind_skip (Lexeme.inside_of_brackets spelled) known
  rwa [Token.length_of_brackets spelled, ← along] at passed

/-- A literal that is one token long is passed. -/
theorem literal {rest : List Token}
    {result : SourceTerm → List Token → Prop} (more : token.lexeme ≠ .endOfInput)
    (known : ∀ span, result (.node span kind) rest) :
    Meets (Parser.literal kind) (token :: rest) result refusal exhaustion :=
  bind_here fun _ => bind_advance more (finish known)

/-- A parser that can neither refuse nor run out gives a result. -/
theorem exists_run (meets : Meets parser tokens result False False) (previous : Span) :
    ∃ value after, parser.run ⟨tokens, previous⟩ = .ok (value, after) ∧
    result value after.tokens := by
  have outcome := meets previous
  split at outcome
  · rename_i value after ran
    exact ⟨value, after, ran, outcome⟩
  · exact outcome.elim
  · exact outcome.elim

/-- A parser that can neither give a result nor run out refuses the program. -/
theorem exists_refused (meets : Meets parser tokens (fun _ _ => False) refusal False)
    (previous : Span) :
    ∃ error, parser.run ⟨tokens, previous⟩ = .error (.refused error) := by
  have outcome := meets previous
  split at outcome
  · exact outcome.elim
  · rename_i error ran
    exact ⟨error, ran⟩
  · exact outcome.elim

end Meets

section

variable {tokens : List Token} {previous : Span}

theorem run_bind_here (next : Span → Parser α) (cursor : Cursor) :
    (here >>= next).run cursor = (next cursor.span).run cursor := rfl

theorem run_bind_lexeme (next : Lexeme → Parser α) (cursor : Cursor) :
    (lexeme >>= next).run cursor = (next cursor.lexeme).run cursor := rfl

theorem run_bind_tokens (next : List Token → Parser α) (cursor : Cursor) :
    (Parser.tokens >>= next).run cursor = (next cursor.tokens).run cursor := rfl

theorem run_bind_expect (mark : Mark) (span : Span) (next : Unit → Parser α) :
    (expect mark >>= next).run ⟨⟨.mark mark, span⟩ :: tokens, previous⟩
      = (next ()).run ⟨tokens, span⟩ := by
  cases mark <;> rfl

theorem run_bind_expectKeyword (word : Keyword) (span : Span) (next : Unit → Parser α) :
    (expectKeyword word >>= next).run ⟨⟨.keyword word, span⟩ :: tokens, previous⟩
      = (next ()).run ⟨tokens, span⟩ := by
  cases word <;> rfl

end

end Parser

end Refactory
