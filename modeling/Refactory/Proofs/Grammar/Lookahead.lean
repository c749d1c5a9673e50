import Refactory.Grammar.Cursor

/-!
# Looking ahead

A reader tells a local declaration and a method from an expression by the lexemes in front of it
alone: a type, a name and what may follow a declared name. Here the types that the lookahead passes
are described as lists of lexemes (`Lexeme.IsType`), and the two tests as the existence of such a
type in front (`Token.atLocalDecl_iff`, `Token.atMethod_iff`).

The lookahead never sees past a wall, which is a lexeme that no type contains
(`Lexeme.Ahead.wall`). Hence two texts that agree up to a wall are told apart by nothing before it.
-/
namespace Refactory

variable {rank : Nat} {used : List Token}

/-- The lexemes of tokens. -/
def Token.lexemes (tokens : List Token) : List Lexeme := tokens.map (·.lexeme)

namespace Lexeme

/-- A number of array suffixes. -/
def brackets : Nat → List Lexeme
  | 0 => []
  | rank + 1 => .mark .lbracket :: .mark .rbracket :: brackets rank

mutual

/-- The lexemes of a type. -/
inductive IsType : List Lexeme → Prop
  /-- A name with array suffixes. -/
  | named (name : String) (rank : Nat) : IsType (.identifier name :: brackets rank)
  /-- A name with type arguments and array suffixes. -/
  | generic (name : String) {arguments : List Lexeme} (inside : IsTypeArguments arguments)
      (rank : Nat) :
      IsType (.identifier name :: .mark .lt :: (arguments ++ .mark .gt :: brackets rank))

/-- The lexemes of types with commas between them. -/
inductive IsTypeArguments : List Lexeme → Prop
  /-- The last type. -/
  | last {type : List Lexeme} (isType : IsType type) : IsTypeArguments type
  /-- A type with others after it. -/
  | more {type rest : List Lexeme} (isType : IsType type) (others : IsTypeArguments rest) :
      IsTypeArguments (type ++ .mark .comma :: rest)

end

/-- What may follow a declared name. -/
def followsDeclared : Lexeme → Bool
  | .mark .eq | .mark .semi | .mark .comma => true
  | _ => false

/-- Only the opening parenthesis follows the name of a method. -/
def followsMethod : Lexeme → Bool
  | .mark .lparen => true
  | _ => false

/-- A type, a name and a lexeme that passes a test are in front. -/
def Ahead (follows : Lexeme → Bool) (lexemes : List Lexeme) : Prop :=
  ∃ type name next rest, IsType type ∧ follows next = true ∧
    lexemes = type ++ .identifier name :: next :: rest

/-- What is in front stays in front of a longer text. -/
theorem Ahead.append {follows : Lexeme → Bool} {lexemes : List Lexeme}
    (ahead : Ahead follows lexemes) (more : List Lexeme) : Ahead follows (lexemes ++ more) := by
  obtain ⟨type, name, next, rest, isType, follow, rfl⟩ := ahead
  exact ⟨type, name, next, rest ++ more, isType, follow, by simp⟩

/-- A wall is a lexeme that no type contains. -/
def isWall : Lexeme → Bool
  | .identifier _ | .mark .lt | .mark .gt | .mark .comma | .mark .lbracket | .mark .rbracket =>
    false
  | _ => true

end Lexeme

namespace Token

open Lexeme

@[simp] theorem lexemes_nil : lexemes [] = [] := rfl

@[simp] theorem lexemes_cons (token : Token) (tokens : List Token) :
    lexemes (token :: tokens) = token.lexeme :: lexemes tokens := rfl

@[simp] theorem lexemes_append (left right : List Token) :
    lexemes (left ++ right) = lexemes left ++ lexemes right := List.map_append

/-- Tokens whose lexemes start with a certain one start with a token of it. -/
theorem exists_of_lexemes_eq_cons {tokens : List Token} {first : Lexeme} {more : List Lexeme}
    (spelled : lexemes tokens = first :: more) :
    ∃ span rest, tokens = ⟨first, span⟩ :: rest ∧ lexemes rest = more := by
  match tokens, spelled with
  | ⟨_, span⟩ :: rest, spelled =>
    simp only [lexemes_cons, List.cons.injEq] at spelled
    obtain ⟨rfl, rfl⟩ := spelled
    exact ⟨span, rest, rfl, rfl⟩

/-- Tokens with the lexemes of two texts in a row are tokens of the one and then of the other. -/
theorem exists_of_lexemes_eq_append {tokens : List Token} {left right : List Lexeme}
    (spelled : lexemes tokens = left ++ right) :
    ∃ first second, tokens = first ++ second ∧ lexemes first = left ∧ lexemes second = right :=
  List.map_eq_append_iff.1 spelled

/-- Tokens without lexemes are none. -/
theorem eq_nil_of_lexemes {tokens : List Token} (spelled : lexemes tokens = []) : tokens = [] :=
  List.map_eq_nil_iff.1 spelled

/-- Array suffixes in front are counted as far as they go. -/
theorem rank_append {rest : List Token} (spelled : lexemes used = brackets rank)
    (stops : Token.first rest ≠ .mark .lbracket) : Token.rank (used ++ rest) = rank := by
  induction rank generalizing used with
  | zero =>
    obtain rfl : used = [] := by simpa [lexemes, brackets] using spelled
    rw [List.nil_append]
    unfold Token.rank
    split
    · exact absurd rfl stops
    · rfl
  | succ rank ih =>
    match used, spelled with
    | ⟨lexeme, _⟩ :: ⟨lexeme', _⟩ :: used, spelled =>
      simp only [lexemes_cons, brackets, List.cons.injEq] at spelled
      obtain ⟨rfl, rfl, spelled⟩ := spelled
      simp only [List.cons_append, Token.rank, ih spelled]
    | [_], spelled => simp [brackets] at spelled
    | [], spelled => simp [brackets] at spelled

/-- The length of array suffixes. -/
theorem length_of_brackets (spelled : lexemes used = brackets rank) :
    used.length = 2 * rank := by
  have counted : (brackets rank).length = 2 * rank := by
    clear spelled
    induction rank with
    | zero => rfl
    | succ rank ih => simp only [brackets, List.length_cons, ih]; omega
  rw [← counted, ← spelled, lexemes, List.length_map]

/-- The array suffixes in front are passed. -/
theorem pastRank_append {rest : List Token}
    (spelled : lexemes used = brackets rank) (stops : Token.first rest ≠ .mark .lbracket) :
    pastRank (used ++ rest) = rest := by
  rw [pastRank, rank_append spelled stops, ← length_of_brackets spelled, List.drop_left]

/-- What is passed as array suffixes is array suffixes. -/
theorem exists_brackets (tokens : List Token) :
    ∃ used, tokens = used ++ pastRank tokens ∧ lexemes used = brackets (Token.rank tokens) := by
  refine ⟨tokens.take (2 * Token.rank tokens), (List.take_append_drop _ _).symm, ?_⟩
  fun_induction Token.rank tokens with
  | case1 _ _ rest ih => simpa [Nat.mul_add, brackets, lexemes] using ih
  | case2 => rfl

/-- What is passed as a type is a type, and what is passed as type arguments are types with the mark
that closes them. -/
theorem isType_of_past (bound : Nat) :
    (∀ tokens rest, pastType? bound tokens = some rest →
      ∃ used, tokens = used ++ rest ∧ IsType (lexemes used)) ∧
    (∀ tokens rest, pastTypeArguments? bound tokens = some rest →
      ∃ used, tokens = used ++ rest ∧
        ∃ arguments, IsTypeArguments arguments ∧
          lexemes used = arguments ++ [Lexeme.mark .gt]) := by
  induction bound with
  | zero => simp [pastType?, pastTypeArguments?]
  | succ bound ih =>
    obtain ⟨ofType, ofArguments⟩ := ih
    constructor
    · intro tokens rest passed
      unfold pastType? at passed
      split at passed
      · rename_i name span span' tail
        obtain ⟨after, found, rfl⟩ := Option.map_eq_some_iff.1 passed
        obtain ⟨inner, rfl, arguments, inside, spelled⟩ := ofArguments _ _ found
        obtain ⟨suffixes, split, written⟩ := exists_brackets after
        refine ⟨⟨.identifier name, span⟩ :: ⟨.mark .lt, span'⟩ :: (inner ++ suffixes), ?_, ?_⟩
        · simpa using split
        · simpa [spelled, written] using IsType.generic name inside (Token.rank after)
      · rename_i name span tail _
        obtain rfl := Option.some.inj passed
        obtain ⟨suffixes, split, written⟩ := exists_brackets tail
        refine ⟨⟨.identifier name, span⟩ :: suffixes, by simpa using split, ?_⟩
        simpa [written] using IsType.named name (Token.rank tail)
      · cases passed
    · intro tokens rest passed
      unfold pastTypeArguments? at passed
      split at passed
      · rename_i span after found
        obtain ⟨first, rfl, isType⟩ := ofType _ _ found
        obtain ⟨others, rfl, arguments, inside, spelled⟩ := ofArguments _ _ passed
        refine ⟨first ++ ⟨.mark .comma, span⟩ :: others, by simp, _, .more isType inside, ?_⟩
        simp [spelled]
      · rename_i span after found
        obtain ⟨first, rfl, isType⟩ := ofType _ _ found
        obtain rfl := Option.some.inj passed
        exact ⟨first ++ [⟨.mark .gt, span⟩], by simp, _, .last isType, by simp⟩
      · cases passed

/-- A lexeme that cannot go on a type: it opens neither type arguments nor array suffixes. -/
def endsType (lexeme : Lexeme) : Bool :=
  lexeme != .mark .lt && lexeme != .mark .lbracket

/-- A type in front is passed whole, if the bound suffices for its length and what comes after it
does not go on with it; and so are type arguments with the mark that closes them. -/
theorem past_append (bound : Nat) :
    (∀ used rest, IsType (lexemes used) → 2 * used.length ≤ bound →
      endsType (Token.first rest) = true → pastType? bound (used ++ rest) = some rest) ∧
    (∀ used closing rest, IsTypeArguments (lexemes used) → closing.lexeme = .mark .gt →
      2 * used.length + 1 ≤ bound →
      pastTypeArguments? bound (used ++ closing :: rest) = some rest) := by
  induction bound with
  | zero =>
    refine ⟨fun used rest isType enough _ => ?_, fun _ _ _ _ _ enough => by omega⟩
    obtain rfl : used = [] := List.eq_nil_of_length_eq_zero (by omega)
    cases isType
  | succ bound ih =>
    obtain ⟨ofType, ofArguments⟩ := ih
    constructor
    · intro used rest isType enough stops
      have stops' : Token.first rest ≠ .mark .lbracket := by
        rintro same
        simp [same, endsType] at stops
      generalize spelled : lexemes used = written at isType
      cases isType with
      | named name rank =>
        match used, spelled with
        | ⟨lexeme, span⟩ :: used, spelled =>
          simp only [lexemes_cons, List.cons.injEq] at spelled
          obtain ⟨rfl, spelled⟩ := spelled
          rw [List.cons_append, pastType?, pastRank_append spelled stops']
          rintro _ tail same
          match rank, used, spelled with
          | 0, [], _ =>
            rw [List.nil_append] at same
            simp [same, Token.first, endsType] at stops
          | rank + 1, ⟨_, _⟩ :: used, spelled =>
            simp_all [brackets]
      | generic name inside rank =>
        match used, spelled with
        | ⟨lexeme, span⟩ :: ⟨lexeme', span'⟩ :: used, spelled =>
          simp only [lexemes_cons, List.cons.injEq] at spelled
          obtain ⟨rfl, rfl, spelled⟩ := spelled
          obtain ⟨inner, after, rfl, written, spelled⟩ := List.map_eq_append_iff.1 spelled
          match after, spelled with
          | closing :: suffixes, spelled =>
            simp only [List.map_cons, List.cons.injEq] at spelled
            simp only [List.length_cons, List.length_append] at enough
            rw [← written] at inside
            have found := ofArguments inner closing (suffixes ++ rest) inside spelled.1 (by omega)
            simp only [List.cons_append, List.append_assoc, pastType?, found, Option.map_some,
              pastRank_append spelled.2 stops']
    · intro used closing rest inside closes enough
      obtain ⟨lexeme, span⟩ := closing
      obtain rfl : lexeme = .mark .gt := closes
      generalize spelled : lexemes used = written at inside
      cases inside with
      | last isType =>
        subst spelled
        have found := ofType used (⟨.mark .gt, span⟩ :: rest) isType (by omega) rfl
        rw [pastTypeArguments?, found]
      | more isType others =>
        obtain ⟨first, after, rfl, written, spelled⟩ := List.map_eq_append_iff.1 spelled
        match after, spelled with
        | ⟨lexeme, span'⟩ :: after, spelled =>
          simp only [List.map_cons, List.cons.injEq] at spelled
          obtain ⟨rfl, spelled⟩ := spelled
          subst written spelled
          simp only [List.length_append, List.length_cons] at enough
          have found := ofType first (⟨.mark .comma, span'⟩ :: (after ++ ⟨.mark .gt, span⟩ :: rest))
            isType (by omega) rfl
          rw [List.append_assoc, List.cons_append, pastTypeArguments?, found]
          exact ofArguments after ⟨.mark .gt, span⟩ rest others rfl (by omega)

/-- The type in front is found by the bound that the lookahead uses. -/
theorem pastType?_append {rest : List Token} (isType : IsType (lexemes used))
    (stops : endsType (Token.first rest) = true) :
    pastType? (typeBound (used ++ rest)) (used ++ rest) = some rest := by
  refine (past_append _).1 used rest isType ?_ stops
  simp only [typeBound, List.length_append]
  omega

/-- A type, a name and a lexeme that passes a test are in front of tokens exactly when the lookahead
finds the type and sees the rest. -/
theorem ahead_iff {follows : Lexeme → Bool} (tokens : List Token) :
    Ahead follows (lexemes tokens) ↔
      ∃ name span next rest, follows next.lexeme = true ∧
        pastType? (typeBound tokens) tokens = some (⟨.identifier name, span⟩ :: next :: rest) := by
  constructor
  · rintro ⟨type, name, next, rest, isType, follow, spelled⟩
    obtain ⟨used, after, rfl, written, spelled⟩ := List.map_eq_append_iff.1 spelled
    match after, spelled with
    | ⟨lexeme, span⟩ :: follower :: after, spelled =>
      simp only [List.map_cons, List.cons.injEq] at spelled
      obtain ⟨rfl, rfl, -⟩ := spelled
      rw [← written] at isType
      exact ⟨name, span, follower, after, follow, pastType?_append isType rfl⟩
  · rintro ⟨name, span, next, rest, follow, found⟩
    obtain ⟨used, split, isType⟩ := (isType_of_past _).1 _ _ found
    refine ⟨lexemes used, name, next.lexeme, lexemes rest, isType, follow, ?_⟩
    rw [split, lexemes_append, lexemes_cons, lexemes_cons]

/-- A local declaration is in front when a type, a name and what may follow a declared name are. -/
theorem atLocalDecl_iff (tokens : List Token) :
    atLocalDecl tokens = true ↔ Ahead followsDeclared (lexemes tokens) := by
  rw [ahead_iff, atLocalDecl]
  constructor
  · intro ahead
    split at ahead
    · rename_i name span rest found
      match rest, ahead, found with
      | [], ahead, _ => simp [Token.first] at ahead
      | next :: rest, ahead, found =>
        refine ⟨name, span, next, rest, ?_, found⟩
        simp only [Token.first] at ahead
        unfold followsDeclared
        split at ahead <;> simp_all
    · cases ahead
  · rintro ⟨name, span, next, rest, follow, found⟩
    simp only [found, Token.first]
    unfold followsDeclared at follow
    split at follow <;> simp_all

/-- A method is in front when a type, a name and an opening parenthesis are. -/
theorem atMethod_iff (tokens : List Token) :
    atMethod tokens = true ↔ Ahead followsMethod (lexemes tokens) := by
  rw [ahead_iff, atMethod]
  constructor
  · intro ahead
    split at ahead
    · rename_i name span span' rest found
      exact ⟨name, span, ⟨.mark .lparen, span'⟩, rest, rfl, found⟩
    · cases ahead
  · rintro ⟨name, span, ⟨next, span'⟩, rest, follow, found⟩
    obtain rfl : next = .mark .lparen := by
      unfold followsMethod at follow
      split at follow <;> simp_all
    simp only [found]

end Token

namespace Lexeme

theorem not_isWall_of_mem_brackets {lexeme : Lexeme} (member : lexeme ∈ brackets rank) :
    isWall lexeme = false := by
  induction rank with
  | zero => cases member
  | succ rank ih =>
    rcases List.mem_cons.1 member with rfl | member
    · rfl
    · rcases List.mem_cons.1 member with rfl | member
      · rfl
      · exact ih member

/-- The end of the input is not among array suffixes. -/
theorem inside_of_brackets (spelled : Token.lexemes used = brackets rank) :
    ∀ token ∈ used, token.lexeme ≠ .endOfInput := by
  intro token member same
  have bracket : token.lexeme ∈ brackets rank := spelled ▸ List.mem_map_of_mem member
  rw [same] at bracket
  cases not_isWall_of_mem_brackets bracket

/-- What holds of names, of the marks of type arguments and of array suffixes, and of two texts in
a row whenever it holds of both, holds of every type. -/
theorem IsType.of_parts {motive : List Lexeme → Prop}
    (append : ∀ left right, motive left → motive right → motive (left ++ right))
    (single : ∀ lexeme, lexeme.isWall = false → motive [lexeme])
    (suffixes : ∀ rank, motive (brackets rank)) {type : List Lexeme} (isType : IsType type) :
    motive type := by
  refine @IsType.rec (fun type _ => motive type) (fun type _ => motive type) ?_ ?_ ?_ ?_ _ isType
  · intro name rank
    exact append [_] _ (single _ rfl) (suffixes rank)
  · intro name arguments _ rank inside
    have closed := append [.mark .gt] _ (single _ rfl) (suffixes rank)
    have opened := append [.mark .lt] _ (single _ rfl) (append _ _ inside closed)
    exact append [_] _ (single _ rfl) opened
  · exact fun _ ih => ih
  · intro type rest _ _ first others
    exact append _ _ first (append [_] _ (single _ rfl) others)

/-- A type contains no wall. -/
theorem IsType.not_isWall {type : List Lexeme} (isType : IsType type) :
    ∀ lexeme ∈ type, isWall lexeme = false := by
  refine isType.of_parts (motive := fun part => ∀ lexeme ∈ part, isWall lexeme = false) ?_ ?_ ?_
  · intro left right first second lexeme member
    exact (List.mem_append.1 member).elim (first lexeme) (second lexeme)
  · intro lexeme open_ other member
    rw [List.mem_singleton.1 member]
    exact open_
  · exact fun rank lexeme member => not_isWall_of_mem_brackets member

/-- What the lookahead sees of two parts in a row: it either ends in the first part, whatever the
second one is, or it goes on into the second part up to the lexeme that passes the test. -/
theorem Ahead.split {follows : Lexeme → Bool} {front back : List Lexeme}
    (ahead : Ahead follows (front ++ back)) :
    (∀ other, Ahead follows (front ++ other)) ∨
      ∃ type name middle next rest, IsType type ∧ follows next = true ∧
        front ++ middle = type ++ [Lexeme.identifier name] ∧ back = middle ++ next :: rest := by
  obtain ⟨type, name, next, rest, isType, follow, spelled⟩ := ahead
  have whole : front ++ back = (type ++ [Lexeme.identifier name]) ++ next :: rest := by
    simpa using spelled
  rcases List.append_eq_append_iff.1 whole with ⟨middle, header, tail⟩ | ⟨middle, header, tail⟩
  · exact .inr ⟨type, name, middle, next, rest, isType, follow, header.symm, tail⟩
  · cases middle with
    | nil =>
      refine .inr ⟨type, name, [], next, rest, isType, follow, by simpa using header, ?_⟩
      simpa using tail.symm
    | cons seen middle =>
      simp only [List.cons_append, List.cons.injEq] at tail
      obtain ⟨rfl, -⟩ := tail
      refine .inl fun other => ⟨type, name, next, middle ++ other, isType, follow, ?_⟩
      simp [header]

/-- Nothing behind a wall changes what the lookahead sees. -/
theorem Ahead.wall {follows : Lexeme → Bool} {front back other : List Lexeme} {wall : Lexeme}
    (isWall : wall.isWall = true) (ahead : Ahead follows (front ++ wall :: back)) :
    Ahead follows (front ++ wall :: other) := by
  rcases ahead.split with ahead | ⟨type, name, middle, next, rest, isType, follow, header, tail⟩
  · exact ahead _
  · cases middle with
    | nil =>
      simp only [List.nil_append, List.cons.injEq] at tail
      obtain ⟨rfl, -⟩ := tail
      refine ⟨type, name, wall, other, isType, follow, ?_⟩
      rw [List.append_nil] at header
      simp [header]
    | cons seen middle =>
      simp only [List.cons_append, List.cons.injEq] at tail
      obtain ⟨rfl, -⟩ := tail
      have member : wall ∈ type ++ [Lexeme.identifier name] := by simp [← header]
      rcases List.mem_append.1 member with member | member
      · rw [isType.not_isWall wall member] at isWall
        cases isWall
      · simp only [List.mem_singleton] at member
        subst member
        cases isWall

/-- Where a type and a name are in front, the lexeme after them is the one that is tested. -/
theorem Ahead.follows_of_isType {follows : Lexeme → Bool} {type rest : List Lexeme} {name : String}
    {next : Lexeme} (isType : IsType type)
    (ahead : Ahead follows (type ++ .identifier name :: next :: rest)) : follows next = true := by
  let plain (lexemes : List Lexeme) : List Token := lexemes.map fun lexeme => ⟨lexeme, .nowhere⟩
  have lexemes_plain (lexemes : List Lexeme) : Token.lexemes (plain lexemes) = lexemes := by
    simp [plain, Token.lexemes, Function.comp_def]
  have isType' : IsType (Token.lexemes (plain type)) := by rwa [lexemes_plain]
  have found : Token.pastType? _ (plain type ++ ⟨.identifier name, .nowhere⟩ ::
      ⟨next, .nowhere⟩ :: plain rest) = _ := Token.pastType?_append isType' rfl
  rw [← lexemes_plain (type ++ _)] at ahead
  obtain ⟨name', span, next', rest', follow, found'⟩ := (Token.ahead_iff _).1 ahead
  have split : plain (type ++ .identifier name :: next :: rest)
      = plain type ++ ⟨.identifier name, .nowhere⟩ :: ⟨next, .nowhere⟩ :: plain rest := by
    simp [plain]
  rw [split, found, Option.some.injEq, List.cons.injEq, List.cons.injEq] at found'
  rw [← found'.2.1] at follow
  exact follow

/-- The lookahead never sees past the front of a part: where a type, a name and what must follow are
in front of a text with this part inside, they are already in front of the part. -/
def Opaque (follows : Lexeme → Bool) (part : List Lexeme) : Prop :=
  ∀ front back other, Ahead follows (front ++ (part ++ back)) → Ahead follows (front ++ other)

/-- A wall that must not follow a name starts an opaque part. -/
theorem opaque_of_wall {follows : Lexeme → Bool} {wall : Lexeme} {part : List Lexeme}
    (isWall : wall.isWall = true) (refused : follows wall = false) :
    Opaque follows (wall :: part) := by
  intro front back other ahead
  rcases ahead.split with ahead | ⟨type, name, middle, next, rest, isType, follow, header, tail⟩
  · exact ahead other
  · cases middle with
    | nil =>
      simp only [List.nil_append, List.cons_append, List.cons.injEq] at tail
      simp [← tail.1, refused] at follow
    | cons seen middle =>
      simp only [List.cons_append, List.cons.injEq] at tail
      obtain ⟨rfl, -⟩ := tail
      have member : wall ∈ type ++ [Lexeme.identifier name] := by simp [← header]
      rcases List.mem_append.1 member with member | member
      · rw [isType.not_isWall wall member] at isWall
        cases isWall
      · simp only [List.mem_singleton] at member
        subst member
        cases isWall

/-- One text covers another when the lookahead, whatever stands around, sees nothing in the other
that it does not see in the first. -/
def Covers (follows : Lexeme → Bool) (old new : List Lexeme) : Prop :=
  ∀ before after, Ahead follows (before ++ (new ++ after)) →
    Ahead follows (before ++ (old ++ after))

namespace Covers

variable {follows : Lexeme → Bool} {old new old' new' : List Lexeme}

theorem refl (lexemes : List Lexeme) : Covers follows lexemes lexemes := fun _ _ => id

/-- Every text covers an opaque one. -/
theorem of_unseen {part lexemes : List Lexeme} (isOpaque : Opaque follows part) :
    Covers follows lexemes part := fun before after => isOpaque before after (lexemes ++ after)

/-- Nothing new is seen in what is covered. -/
theorem ahead (covers : Covers follows old new)
    (ahead : Ahead follows new) : Ahead follows old := by
  simpa using covers [] [] (by simpa using ahead)

theorem append (first : Covers follows old new) (second : Covers follows old' new') :
    Covers follows (old ++ old') (new ++ new') := by
  intro before after ahead
  have withFirst := first before (new' ++ after) (by simpa using ahead)
  simpa using second (before ++ old) after (by simpa using withFirst)

end Covers

/-- Two texts agree, or they agree up to and including a wall. -/
def Echo (left right : List Lexeme) : Prop :=
  left = right ∨ ∃ front, ∃ wall : Lexeme, ∃ leftRest rightRest, wall.isWall = true ∧
    left = front ++ wall :: leftRest ∧ right = front ++ wall :: rightRest

namespace Echo

variable {left left' right right' : List Lexeme}

theorem refl (lexemes : List Lexeme) : Echo lexemes lexemes := .inl rfl

theorem symm (echo : Echo left right) : Echo right left := by
  rcases echo with rfl | ⟨front, wall, leftRest, rightRest, isWall, rfl, rfl⟩
  · exact .inl rfl
  · exact .inr ⟨front, wall, rightRest, leftRest, isWall, rfl, rfl⟩

/-- Texts that start with one wall agree up to a wall. -/
theorem wall {wall : Lexeme} (isWall : wall.isWall = true) : Echo (wall :: left) (wall :: right) :=
  .inr ⟨[], wall, left, right, isWall, rfl, rfl⟩

theorem append (first : Echo left left') (second : Echo right right') :
    Echo (left ++ right) (left' ++ right') := by
  rcases first with rfl | ⟨front, wall, leftRest, rightRest, isWall, rfl, rfl⟩
  · rcases second with rfl | ⟨front, wall, leftRest, rightRest, isWall, rfl, rfl⟩
    · exact .inl rfl
    · exact .inr ⟨left ++ front, wall, leftRest, rightRest, isWall, by simp, by simp⟩
  · exact .inr ⟨front, wall, leftRest ++ right, rightRest ++ right', isWall, by simp, by simp⟩

/-- One lexeme in front of texts that agree. -/
theorem cons (lexeme : Lexeme) (second : Echo right right') :
    Echo (lexeme :: right) (lexeme :: right') := append (refl [lexeme]) second

/-- The lookahead sees the same in texts that agree up to a wall. -/
theorem ahead {follows : Lexeme → Bool} (echo : Echo left right) (ahead : Ahead follows left) :
    Ahead follows right := by
  rcases echo with rfl | ⟨front, wall, leftRest, rightRest, isWall, rfl, rfl⟩
  · exact ahead
  · exact ahead.wall isWall

end Echo

end Lexeme

end Refactory
