import Refactory.Proofs.Grammar.Readable
import Refactory.Proofs.Grammar.Run

/-!
# The tokens of a node

A node is written as lexemes of its own and the nodes below it (`Part.IsWritten`), so that it takes
tokens one after the other, of which the nodes below it take runs again (`Part.Occupies`). The span
of a node that takes tokens is the hull of the first and the last of them.

`Parser.Yields` states what a run of a parser makes of the tokens since some place: whatever it
returns is written as the parts that these tokens fill. A walk through the grammar shows that each
node takes the tokens it was read from (`SourceTerm.exists_occupies_of_ofTokens`).
-/
namespace Refactory

variable {tokens : List Token} {lexeme : Lexeme} {parser : Parser SourceTerm} {mark : Mark}
  {form : Term.Form Span}

/-- A part of what a node is written as. -/
inductive Part where
  /-- A lexeme of the node itself. -/
  | own (lexeme : Lexeme)
  /-- A node below it. -/
  | node (term : SourceTerm)

namespace Part

open Lexeme (brackets)

/-- A mark of the node itself. -/
def sign (mark : Mark) : Part := own (.mark mark)

/-- A keyword of the node itself. -/
def word (keyword : Keyword) : Part := own (.keyword keyword)

/-- A name of the node itself. -/
def name (name : String) : Part := own (.identifier name)

/-- The part of a child where there is one. -/
def child (term : Option SourceTerm) : List Part := term.toList.map node

/-- The part of a child where there is one, with a lexeme before it. -/
def led (lead : Part) : Option SourceTerm → List Part
  | none => []
  | some term => [lead, node term]

/-- Nodes with commas between them; where an open list of them ends, there may be a comma more or no
node at all. -/
inductive Commas (isOpen : Bool) : List SourceTerm → List Part → Prop
  /-- No node. -/
  | none (allowed : isOpen = true) : Commas isOpen [] []
  /-- The last node. -/
  | last (term : SourceTerm) : Commas isOpen [term] [node term]
  /-- A node with a comma after it. -/
  | more (term : SourceTerm) {terms : List SourceTerm} {parts : List Part}
      (rest : Commas isOpen terms parts) :
      Commas isOpen (term :: terms) (node term :: sign .comma :: parts)

/-- Nodes with commas between them, or nothing. -/
def Listed (terms : List SourceTerm) (parts : List Part) : Prop :=
  terms = [] ∧ parts = [] ∨ Commas false terms parts

/-- What nodes of a kind are written as. -/
def IsWritten : Term.Form Span → List Part → Prop
  | .unit members, parts => parts = members.map node
  | .method result text params body, parts => ∃ list, Listed params list ∧
    parts = child result ++ name text :: sign .lparen :: list ++ sign .rparen :: child body
  | .param type text, parts => parts = child type ++ [name text]
  | .typeRef text arguments rank, parts => ∃ list suffixes,
    (arguments = [] ∧ list = [] ∨
      ∃ inner, Commas false arguments inner ∧ list = sign .lt :: inner ++ [sign .gt]) ∧
    rank = min suffixes Parser.largestRank ∧
      parts = name text :: list ++ (brackets suffixes).map own
  | .block statements, parts => parts = sign .lbrace :: statements.map node ++ [sign .rbrace]
  | .localDecl type declarators, parts => ∃ list, Commas false declarators list ∧
    (parts = child type ++ list ∨ parts = child type ++ list ++ [sign .semi])
  | .declarator text value, parts => parts = name text :: led (sign .eq) value
  | .exprStmt expression, parts => parts = child expression ++ [sign .semi]
  | .returnStmt value, parts => parts = word .return :: child value ++ [sign .semi]
  | .ifStmt condition thenBranch elseBranch, parts =>
    parts = word .if :: sign .lparen :: child condition ++ sign .rparen :: child thenBranch ++
      led (word .else) elseBranch
  | .whileLoop condition body, parts =>
    parts = word .while :: sign .lparen :: child condition ++ sign .rparen :: child body
  | .forLoop declaration initializers condition incrementors body, parts => ∃ first last,
    Listed initializers first ∧ Listed incrementors last ∧
      parts = word .for :: sign .lparen :: child declaration ++ first ++ sign .semi ::
      child condition ++ sign .semi :: last ++ sign .rparen :: child body
  | .forEach type text collection body, parts =>
    parts = word .forEach :: sign .lparen :: child type ++ name text :: word .in :: child collection
      ++ sign .rparen :: child body
  | .int value, parts => ∃ natural : Nat, value = natural ∧ parts = [own (.integer natural)]
  | .str contents, parts => parts = [own (.text contents)]
  | .bool value, parts => parts = [word (if value then .true else .false)]
  | .null, parts => parts = [word .null]
  | .ident text, parts => parts = [name text]
  | .member receiver text conditional, parts =>
    parts = child receiver ++ [sign (if conditional then .questionDot else .dot), name text]
  | .invoke callee arguments, parts => ∃ list, Commas true arguments list ∧
    parts = child callee ++ sign .lparen :: list ++ [sign .rparen]
  | .argument modifier value, parts => parts = modifier.lexemes.map own ++ child value
  | .index receiver arguments, parts => ∃ list, Commas false arguments list ∧
    parts = child receiver ++ sign .lbracket :: list ++ [sign .rbracket]
  | .lambda params body parenthesized, parts => ∃ list,
    (parenthesized = true ∧
        (∃ inner, Commas true params inner ∧ list = sign .lparen :: inner ++ [sign .rparen]) ∨
      parenthesized = false ∧ ∃ param, params = [param] ∧ list = [node param]) ∧
    parts = list ++ sign .arrow :: child body
  | .binary op left right, parts => parts = child left ++ sign op.mark :: child right
  | .unary op operand, parts => parts = if op.isPostfix then child operand ++ [sign op.mark]
    else sign op.mark :: child operand
  | .assign op target value, parts => parts = child target ++ sign op.mark :: child value
  | .paren inner, parts => parts = sign .lparen :: child inner ++ [sign .rparen]

/-- Tokens that fill parts: one for each lexeme, and those that a node takes for each node. -/
inductive Fills (occupies : SourceTerm → List Token → Prop) : List Part → List Token → Prop
  /-- No parts. -/
  | nil : Fills occupies [] []
  /-- A lexeme and the parts after it. -/
  | own (lexeme : Lexeme) (span : Span) {parts : List Part} {tokens : List Token}
      (rest : Fills occupies parts tokens) :
      Fills occupies (own lexeme :: parts) (⟨lexeme, span⟩ :: tokens)
  /-- A node and the parts after it. -/
  | node {term : SourceTerm} {used : List Token} {parts : List Part} {tokens : List Token}
      (here : occupies term used) (rest : Fills occupies parts tokens) :
      Fills occupies (node term :: parts) (used ++ tokens)

/-- The tokens that a node takes: they fill the parts that it is written as, and its span goes from
the first to the last of them. -/
inductive Occupies : SourceTerm → List Token → Prop
  /-- A node that takes some tokens. -/
  | intro {form : Term.Form Span} {parts : List Part} {tokens : List Token} (nonempty : tokens ≠ [])
      (written : IsWritten form parts) (fills : Fills Occupies parts tokens) :
      Occupies (.node ((tokens.head nonempty).span.hull (tokens.getLast nonempty).span) form) tokens

/-- The nodes among parts. -/
def nodes (parts : List Part) : List SourceTerm :=
  parts.filterMap fun
    | own _ => none
    | node term => some term

section

variable {parts more : List Part}

@[simp] theorem nodes_nil : nodes [] = [] := rfl

@[simp] theorem nodes_own (lexeme : Lexeme) : nodes (own lexeme :: parts) = nodes parts := rfl

@[simp] theorem nodes_sign (mark : Mark) : nodes (sign mark :: parts) = nodes parts := rfl

@[simp] theorem nodes_word (keyword : Keyword) : nodes (word keyword :: parts) = nodes parts := rfl

@[simp] theorem nodes_name (text : String) : nodes (name text :: parts) = nodes parts := rfl

@[simp] theorem nodes_node
    (term : SourceTerm) : nodes (node term :: parts) = term :: nodes parts := rfl

@[simp] theorem nodes_append : nodes (parts ++ more) = nodes parts ++ nodes more :=
  List.filterMap_append

@[simp] theorem nodes_map_own (lexemes : List Lexeme) : nodes (lexemes.map own) = [] := by
  induction lexemes with
  | nil => rfl
  | cons lexeme lexemes ih => exact ih

@[simp] theorem nodes_map_node (terms : List SourceTerm) : nodes (terms.map node) = terms := by
  induction terms with
  | nil => rfl
  | cons term terms ih => rw [List.map_cons, nodes_node, ih]

@[simp] theorem nodes_child (term : Option SourceTerm) : nodes (child term) = term.toList :=
  nodes_map_node _

@[simp] theorem nodes_led (lead : Lexeme) (term : Option SourceTerm) :
    nodes (led (own lead) term) = term.toList := by
  cases term <;> rfl

theorem Commas.nodes_eq {isOpen : Bool} {terms : List SourceTerm}
    (commas : Commas isOpen terms parts) :
    nodes parts = terms := by
  induction commas with
  | none => rfl
  | last => rfl
  | more term rest ih => rw [nodes_node, nodes_sign, ih]

theorem Listed.nodes_eq {terms : List SourceTerm}
    (listed : Listed terms parts) : nodes parts = terms := by
  rcases listed with ⟨rfl, rfl⟩ | commas
  · rfl
  · exact commas.nodes_eq

/-- The nodes that a node is written with are its children. -/
theorem IsWritten.nodes_eq (written : IsWritten form parts) :
    nodes parts = Term.parts form := by
  cases form with
  | method result text params body =>
    obtain ⟨list, listed, rfl⟩ := written
    simp [Term.parts, listed.nodes_eq]
  | typeRef text arguments rank =>
    obtain ⟨list, suffixes, absent | ⟨inner, commas, rfl⟩, -, rfl⟩ := written
    · simp [Term.parts, absent]
    · simp [Term.parts, commas.nodes_eq]
  | localDecl type declarators =>
    obtain ⟨list, commas, rfl | rfl⟩ := written <;> simp [Term.parts, commas.nodes_eq]
  | forLoop declaration initializers condition incrementors body =>
    obtain ⟨first, last, opening, closing, rfl⟩ := written
    simp [Term.parts, opening.nodes_eq, closing.nodes_eq]
  | int value =>
    obtain ⟨natural, -, rfl⟩ := written
    rfl
  | invoke callee arguments =>
    obtain ⟨list, commas, rfl⟩ := written
    simp [Term.parts, commas.nodes_eq]
  | index receiver arguments =>
    obtain ⟨list, commas, rfl⟩ := written
    simp [Term.parts, commas.nodes_eq]
  | lambda params body parenthesized =>
    obtain ⟨list, ⟨-, inner, commas, rfl⟩ | ⟨-, param, rfl, rfl⟩, rfl⟩ := written
    · simp [Term.parts, commas.nodes_eq]
    · simp [Term.parts]
  | unary op operand =>
    rw [IsWritten] at written
    rw [written]
    split <;> simp [Term.parts]
  | _ =>
    rw [IsWritten] at written
    rw [written]
    simp [Term.parts, word, sign]

end

theorem Fills.append {occupies : SourceTerm → List Token → Prop} {parts others : List Part}
    {more : List Token} (fills : Fills occupies parts tokens) (later : Fills occupies others more) :
    Fills occupies (parts ++ others) (tokens ++ more) := by
  induction fills with
  | nil => exact later
  | own lexeme span rest ih => exact .own lexeme span ih
  | node here rest ih =>
    rw [List.append_assoc]
    exact .node here ih

/-- A node takes at least one token. -/
theorem Occupies.ne_nil {term : SourceTerm} (occupies : Occupies term tokens) :
    tokens ≠ [] := by
  cases occupies with
  | intro nonempty _ _ => exact nonempty

theorem Fills.ne_nil {parts : List Part} (fills : Fills Occupies parts tokens)
    (some : parts ≠ []) : tokens ≠ [] := by
  cases fills with
  | nil => exact absurd rfl some
  | own => exact List.cons_ne_nil _ _
  | node here => exact List.append_ne_nil_of_left_ne_nil here.ne_nil _

end Part

open Refactory.Part

/-- A cursor that has passed some tokens since another place, none of them the end of the input. -/
structure Cursor.Passed (origin : Cursor) (used : List Token) (cursor : Cursor) : Prop where
  /-- The tokens stand between the two places. -/
  tokens_eq : origin.tokens = used ++ cursor.tokens
  /-- The end of the input is not passed. -/
  inside : ∀ token ∈ used, token.lexeme ≠ .endOfInput
  /-- The last of them is the token read last. -/
  previous_eq : cursor.previous = (used.getLast?.map Token.span).getD origin.previous

/-- The tokens passed since a place fill some parts. -/
def Cursor.Since (origin : Cursor) (parts : List Part) (cursor : Cursor) : Prop :=
  ∃ used, Fills Occupies parts used ∧ origin.Passed used cursor

namespace Cursor

variable {origin middle cursor : Cursor} {parts more : List Part} {used others : List Token}

theorem Passed.refl (cursor : Cursor) : cursor.Passed [] cursor := ⟨rfl, by simp, rfl⟩

theorem Passed.trans (first : origin.Passed used middle) (second : middle.Passed others cursor) :
    origin.Passed (used ++ others) cursor where
  tokens_eq := by rw [first.tokens_eq, second.tokens_eq, List.append_assoc]
  inside token member := (List.mem_append.1 member).elim (first.inside token) (second.inside token)
  previous_eq := by
    rw [second.previous_eq, first.previous_eq, List.getLast?_append]
    cases others.getLast? <;> rfl

/-- A token that is not the end of the input is passed. -/
theorem passed_next (front : cursor.lexeme = lexeme) (more : lexeme ≠ .endOfInput) :
    ∃ span, cursor.Passed [⟨lexeme, span⟩] cursor.next := by
  obtain ⟨tokens, previous⟩ := cursor
  match tokens, front with
  | [], front => exact absurd front.symm more
  | ⟨_, span⟩ :: rest, rfl =>
    have passes : Cursor.next ⟨⟨_, span⟩ :: rest, previous⟩ = ⟨rest, span⟩ := if_neg more
    rw [passes]
    exact ⟨span, rfl, by simpa using more, rfl⟩

namespace Since

theorem refl (cursor : Cursor) : cursor.Since [] cursor := ⟨[], .nil, .refl cursor⟩

theorem trans (first : origin.Since parts middle) (second : middle.Since more cursor) :
    origin.Since (parts ++ more) cursor := by
  obtain ⟨used, fills, passed⟩ := first
  obtain ⟨others, later, further⟩ := second
  exact ⟨used ++ others, fills.append later, passed.trans further⟩

/-- One more token is passed. -/
theorem next (since : origin.Since parts cursor) (front : cursor.lexeme = lexeme)
    (more : lexeme ≠ .endOfInput) : origin.Since (parts ++ [Part.own lexeme]) cursor.next := by
  obtain ⟨span, passed⟩ := passed_next front more
  exact since.trans ⟨_, .own lexeme span .nil, passed⟩

/-- The tokens passed are those of a node that is written as their parts. -/
theorem node (since : origin.Since parts cursor) (some : parts ≠ [])
    (written : IsWritten form parts) :
    origin.Since [.node (.node (origin.span.hull cursor.previous) form)] cursor := by
  obtain ⟨used, fills, passed⟩ := since
  have nonempty := fills.ne_nil some
  have front : origin.span = (used.head nonempty).span := by
    obtain ⟨first, rest, rfl⟩ := List.exists_cons_of_ne_nil nonempty
    simp [span, passed.tokens_eq]
  have back : cursor.previous = (used.getLast nonempty).span := by
    rw [passed.previous_eq, List.getLast?_eq_getLast_of_ne_nil nonempty]
    rfl
  rw [front, back]
  refine ⟨used, ?_, passed⟩
  simpa using Fills.node (.intro nonempty written fills) .nil

end Since

end Cursor

namespace Parser

open Cursor (Since)

variable {α β : Type} {origin cursor : Cursor} {parts : List Part}

/-- A run of a parser at a cursor ends, if it gives a value, behind tokens that fill certain parts
since the origin. -/
def Yields (origin cursor : Cursor) (parser : Parser α) (result : α → List Part → Prop) : Prop :=
  ∀ value after, parser.run cursor = .ok (value, after) →
    ∃ parts, origin.Since parts after ∧ result value parts

/-- A parser that yields the node it reads. -/
def YieldsNode (origin cursor : Cursor) (parser : Parser SourceTerm) : Prop :=
  Yields origin cursor parser fun term parts => parts = [.node term]

namespace Yields

variable {result : α → List Part → Prop}

theorem pure {value : α} (since : origin.Since parts cursor) (known : result value parts) :
    Yields origin cursor (pure value) result := by
  rintro _ _ ⟨⟩
  exact ⟨parts, since, known⟩

theorem exhausted : Yields origin cursor (Parser.exhausted : Parser α) result := nofun

theorem refuse
    {wanted : Expectation} : Yields origin cursor (Parser.refuse wanted : Parser α) result := nofun

/-- One parser after another, of which the second starts where the first has stopped. -/
theorem bind_behind {parser : Parser β} {next : β → Parser α} {inner : β → List Part → Prop}
    (first : Yields cursor cursor parser inner)
    (second : ∀ value more after, inner value more → cursor.Since more after →
      Yields origin after (next value) result) : Yields origin cursor (parser >>= next) result := by
  intro value after ran
  rw [StateT.run_bind] at ran
  match here : parser.run cursor with
  | .error failure =>
    rw [here] at ran
    cases ran
  | .ok (read, middle) =>
    rw [here] at ran
    obtain ⟨more, further, known⟩ := first read middle here
    exact second read more middle known further value after ran

/-- One parser after another, with what both have passed. -/
theorem bind {parser : Parser β} {next : β → Parser α} {inner : β → List Part → Prop}
    (since : origin.Since parts cursor) (first : Yields cursor cursor parser inner)
    (second : ∀ value more after, inner value more → origin.Since (parts ++ more) after →
      Yields origin after (next value) result) : Yields origin cursor (parser >>= next) result :=
  bind_behind first fun value more after known further =>
    second value more after known (since.trans further)

/-- A node is read before the rest. -/
theorem bind_node {next : SourceTerm → Parser α}
    (since : origin.Since parts cursor) (first : YieldsNode cursor cursor parser)
    (second : ∀ term after, origin.Since (parts ++ [Part.node term]) after →
      Yields origin after (next term) result) : Yields origin cursor (parser >>= next) result :=
  bind since first fun _ _ _ known since => second _ _ (known ▸ since)

/-- A node that is passed on in another form. -/
theorem map_node {f : SourceTerm → α}
    (yields : YieldsNode origin cursor parser) (known : ∀ term, result (f term) [.node term]) :
    Yields origin cursor (f <$> parser) result := by
  intro value after ran
  rw [StateT.run_map] at ran
  match here : parser.run cursor with
  | .error failure =>
    rw [here] at ran
    cases ran
  | .ok (term, middle) =>
    rw [here] at ran
    cases ran
    obtain ⟨_, since, rfl⟩ := yields term middle here
    exact ⟨_, since, known term⟩

/-- A node that is passed on in another form to the rest. -/
theorem bind_map_node {f : SourceTerm → β} {next : β → Parser α}
    (since : origin.Since parts cursor) (first : YieldsNode cursor cursor parser)
    (second : ∀ term after, origin.Since (parts ++ [Part.node term]) after →
      Yields origin after (next (f term)) result) :
      Yields origin cursor (f <$> parser >>= next) result := by
  rw [bind_map_left]
  exact bind_node since first second

theorem bind_here {next : Span → Parser α}
    (known : Yields origin cursor (next cursor.span) result) :
    Yields origin cursor (Parser.here >>= next) result := known

theorem bind_lexeme {next : Lexeme → Parser α}
    (known : Yields origin cursor (next cursor.lexeme) result) :
    Yields origin cursor (Parser.lexeme >>= next) result := known

theorem bind_tokens {next : List Token → Parser α}
    (known : Yields origin cursor (next cursor.tokens) result) :
    Yields origin cursor (Parser.tokens >>= next) result := known

theorem bind_atMark {next : Bool → Parser α}
    (known : Yields origin cursor (next (cursor.lexeme == .mark mark)) result) :
    Yields origin cursor (Parser.atMark mark >>= next) result := known

section

variable (since : origin.Since parts cursor)

include since

/-- A token in front that is not the end of the input is passed. -/
theorem bind_advance {next : Unit → Parser α}
    (front : cursor.lexeme = lexeme) (more : lexeme ≠ .endOfInput)
    (known : ∀ after, origin.Since (parts ++ [Part.own lexeme]) after →
      Yields origin after (next ()) result) :
    Yields origin cursor (Parser.advance >>= next) result :=
    known cursor.next (since.next front more)

theorem bind_eat {next : Bool → Parser α}
    (yes : ∀ after, origin.Since (parts ++ [sign mark]) after →
      Yields origin after (next true) result)
    (no : Yields origin cursor (next false) result) :
    Yields origin cursor (Parser.eat mark >>= next) result := by
  rw [Parser.eat, bind_assoc]
  refine bind_atMark ?_
  split
  · rename_i same
    rw [bind_assoc]
    refine bind_advance since (beq_iff_eq.1 same) (by simp) fun after since => ?_
    rw [pure_bind]
    exact yes after since
  · rw [pure_bind]
    exact no

theorem bind_expect {next : Unit → Parser α}
    (known : ∀ after, origin.Since (parts ++ [sign mark]) after →
      Yields origin after (next ()) result) :
    Yields origin cursor (Parser.expect mark >>= next) result := by
  rw [Parser.expect, bind_assoc]
  refine bind_eat since (fun after since => ?_) ?_
  · simpa using known after since
  · exact bind since (refuse : Yields _ _ _ fun _ _ => False) fun _ _ _ => False.elim

theorem bind_expectKeyword {keyword : Keyword} {next : Unit → Parser α}
    (known : ∀ after, origin.Since (parts ++ [word keyword]) after →
      Yields origin after (next ()) result) :
    Yields origin cursor (Parser.expectKeyword keyword >>= next) result := by
  rw [Parser.expectKeyword, bind_assoc]
  refine bind_lexeme ?_
  split
  · rename_i same
    exact bind_advance since (beq_iff_eq.1 same) (by simp) known
  · exact bind since (refuse : Yields _ _ _ fun _ _ => False) fun _ _ _ => False.elim

theorem bind_name {next : String → Parser α}
    (known : ∀ text after, origin.Since (parts ++ [Part.name text]) after →
      Yields origin after (next text) result) :
    Yields origin cursor (Parser.name >>= next) result := by
  rw [Parser.name, bind_assoc]
  refine bind_lexeme ?_
  split
  · rename_i text same
    rw [bind_assoc]
    refine bind_advance since same (by simp) fun after since => ?_
    rw [pure_bind]
    exact known text after since
  · exact bind since (refuse : Yields _ _ _ fun _ _ => False) fun _ _ _ => False.elim

theorem bind_eatElse {next : Bool → Parser α}
    (yes : ∀ after, origin.Since (parts ++ [word .else]) after →
      Yields origin after (next true) result)
    (no : Yields origin cursor (next false) result) :
    Yields origin cursor (Parser.eatElse >>= next) result := by
  rw [Parser.eatElse, bind_assoc]
  refine bind_lexeme ?_
  split
  · rename_i same
    rw [bind_assoc]
    refine bind_advance since (beq_iff_eq.1 same) (by simp) fun after since => ?_
    rw [pure_bind]
    exact yes after since
  · rw [pure_bind]
    exact no

/-- Tokens in front of the end of the input are passed. -/
theorem bind_skip {used rest : List Token} {next : Unit → Parser α}
    (front : cursor.tokens = used ++ rest) (more : ∀ token ∈ used, token.lexeme ≠ .endOfInput)
    (known : ∀ after, origin.Since (parts ++ (Token.lexemes used).map .own) after →
      Yields origin after (next ()) result) :
    Yields origin cursor (Parser.skip used.length >>= next) result := by
  induction used generalizing cursor parts with
  | nil =>
    rw [List.length_nil, Parser.skip, pure_bind]
    exact known cursor (by simpa using since)
  | cons token used ih =>
    rw [List.length_cons, Parser.skip, bind_assoc]
    have first : cursor.lexeme = token.lexeme := by
      rw [Cursor.lexeme, front]
      rfl
    obtain ⟨inside, more⟩ := List.forall_mem_cons.1 more
    have passed : cursor.next.tokens = used ++ rest := by
      simp [Cursor.next, front, inside]
    refine fun value after =>
      ih (since.next first inside) passed more (fun after since => ?_) value after
    exact known after (by simpa using since)

/-- Array suffixes are passed. -/
theorem bind_rank {next : Unit → Parser α} (known : ∀ after,
      origin.Since (parts ++ (Lexeme.brackets (Token.rank cursor.tokens)).map .own) after →
      Yields origin after (next ()) result) :
    Yields origin cursor (Parser.skip (2 * Token.rank cursor.tokens) >>= next) result := by
  obtain ⟨suffixes, along, spelled⟩ := Token.exists_brackets cursor.tokens
  rw [← Token.length_of_brackets spelled]
  rw [← spelled] at known
  exact bind_skip since along (Lexeme.inside_of_brackets spelled) known

/-- The node of what was passed since the origin. -/
theorem finish (some : parts ≠ []) (written : IsWritten form parts) :
    YieldsNode origin cursor (Parser.finish origin.span form) := by
  rintro _ _ ⟨⟩
  exact ⟨_, since.node some written, rfl⟩

theorem bind_finish {next : SourceTerm → Parser α}
    (some : parts ≠ []) (written : IsWritten form parts)
    (known : ∀ term, origin.Since [.node term] cursor → Yields origin cursor (next term) result) :
    Yields origin cursor (Parser.finish origin.span form >>= next) result :=
  known _ (since.node some written)

end

/-- The node of what was passed since a place behind the origin. -/
theorem bind_finish_behind {opening : Cursor} {more : List Part} {next : SourceTerm → Parser α}
    (since : origin.Since parts opening) (further : opening.Since more cursor)
    (some : more ≠ []) (written : IsWritten form more)
    (known : ∀ term, origin.Since (parts ++ [Part.node term]) cursor →
      Yields origin cursor (next term) result) :
    Yields origin cursor (Parser.finish opening.span form >>= next) result :=
  known _ (since.trans (further.node some written))

end Yields

end Parser

end Refactory
