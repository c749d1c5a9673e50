import Mathlib.Data.String.Basic
import Refactory.Proofs.Token.Rule

/-!
# The tokens of a text

A scanner reads the longest match at the front of a text, passes it over, and goes on behind it.
`Token.Reads` says this as a relation, which every scan is in (`Token.reads_scanFrom`); what the
tokens of a text are (`Token.Divides`) and where a text without tokens is refused
(`Token.Refuses`) follow by induction on it. All this is about the ranges of bytes that are scanned;
what spans make of them is another matter (`Token.located`).
-/
namespace Refactory

open String (utf8Len)

namespace Token

/-- The characters `used` of a text take the bytes from one offset to another, and `rest` comes
after them. -/
def Between (source : List Char) (start stop : Nat) (used rest : List Char) : Prop :=
  ∃ before, source = before ++ used ++ rest ∧ start = utf8Len before ∧
    stop = utf8Len (before ++ used)

/-- Characters that are passed over: runs of blanks and comments, one after the other. -/
inductive IsGap : List Char → Prop
  /-- None. -/
  | nil : IsGap []
  /-- Some, and a run of blanks or a comment after them. -/
  | append {gap used : List Char} {rule : Rule} (earlier : IsGap gap)
      (isSkipped : rule.isSkipped = true) (matched : rule.Matches used) : IsGap (gap ++ used)

/-- What the tokens of a text are. -/
structure Divides (source : String) (tokens : List Token) : Prop where
  /-- Tokens that take some bytes, and the end of the input behind them. -/
  ends : ∃ others, tokens = others ++ [⟨.endOfInput, ⟨source.utf8ByteSize, source.utf8ByteSize⟩⟩] ∧
    ∀ token ∈ others, token.lexeme ≠ .endOfInput ∧ token.span.start < token.span.stop
  /-- No token starts before one that precedes it ends. -/
  ascending : tokens.Pairwise fun first second => first.span.stop ≤ second.span.start
  /-- From the start of the text to the first token, and from each token to the next one, all
  characters are passed over. -/
  gaps : (⟨0, 0⟩ :: tokens.map Token.span).IsChain fun first second =>
    ∃ gap rest, Between source.toList first.stop second.start gap rest ∧ IsGap gap
  /-- The characters of a token are the longest match where it starts. -/
  longest : ∀ token ∈ tokens, token.lexeme ≠ .endOfInput → ∃ (rule : Rule) (used rest : List Char),
    Between source.toList token.span.start token.span.stop used rest ∧
      rule.IsLongest (used ++ rest) used ∧ rule.lexeme? used = some token.lexeme

/-- Only the end of the input takes no bytes. -/
theorem Divides.start_lt_stop {source : String} {tokens : List Token} {token : Token}
    (divides : Divides source tokens) (member : token ∈ tokens)
    (noEnd : token.lexeme ≠ .endOfInput) : token.span.start < token.span.stop := by
  obtain ⟨others, rfl, inside⟩ := divides.ends
  rcases List.mem_append.1 member with member | member
  · exact (inside token member).2
  · obtain rfl := List.mem_singleton.1 member
    exact absurd rfl noEnd

/-- From the front of a text, longest matches that are passed over or have a lexeme lead to the
rest of it. -/
inductive Reaches : List Char → List Char → Prop
  /-- The front of the text. -/
  | here (text : List Char) : Reaches text text
  /-- Behind a match at the front. -/
  | further {rule : Rule} {used rest later : List Char}
      (longest : rule.IsLongest (used ++ rest) used)
      (isRead : rule.isSkipped = true ∨ (rule.lexeme? used).isSome = true)
      (reaches : Reaches rest later) : Reaches (used ++ rest) later

/-- Where and why reading the end `text` of a source is given up: it comes to a number that is too
large, or to characters at which nothing is matched. -/
def Refuses (source text : List Char) : ParseError → Prop
  | .tooLarge span => ∃ used rest, Reaches text (used ++ rest) ∧
      Between source span.start span.stop used rest ∧
      Rule.IsLongest (used ++ rest) .digits used ∧
      Lexeme.largestInteger < Lexeme.valueOfDigits used
  | .unexpected characters span => ∃ used rest, Reaches text (used ++ rest) ∧
      Between source span.start span.stop used rest ∧ characters = String.ofList used ∧ used ≠ [] ∧
      ∀ (rule : Rule) (more : List Char), more <+: used ++ rest → ¬ rule.Matches more
  | .expected .. => False

/-- Reading the characters of a text behind others gives these tokens. -/
inductive Reads : List Char → List Char → List Token → Prop
  /-- The end of the text. -/
  | ends (before : List Char) : Reads before [] [⟨.endOfInput, ⟨utf8Len before, utf8Len before⟩⟩]
  /-- Blanks or a comment. -/
  | skipped {before used rest : List Char} {rule : Rule} {tokens : List Token}
      (isSkipped : rule.isSkipped = true) (longest : rule.IsLongest (used ++ rest) used)
      (reads : Reads (before ++ used) rest tokens) : Reads before (used ++ rest) tokens
  /-- A lexeme. -/
  | lexeme {before used rest : List Char} {rule : Rule} {lexeme : Lexeme} {tokens : List Token}
      (isLexeme : rule.lexeme? used = some lexeme) (longest : rule.IsLongest (used ++ rest) used)
      (reads : Reads (before ++ used) rest tokens) : Reads before (used ++ rest)
        (⟨lexeme, ⟨utf8Len before, utf8Len (before ++ used)⟩⟩ :: tokens)

/-! ### Every scan is a reading -/

/-- The width of a piece is the number of bytes of its characters. -/
theorem width_eq (reading : Reading) (characters : List Char) :
    Piece.width ⟨reading, characters⟩ = utf8Len characters := by
  have sum (characters : List Char) (total : Nat) :
      characters.foldl (fun total char => total + char.utf8Size) total
        = total + utf8Len characters := by
    induction characters generalizing total with
    | nil => rfl
    | cons char rest ih =>
      rw [List.foldl_cons, ih, String.utf8Len_cons, Nat.add_assoc, Nat.add_comm (utf8Len rest)]
  rw [Piece.width, sum, Nat.zero_add]

/-- The characters of a piece are passed over once the piece is read. -/
theorem scanFrom_append (used rest : List Char) (offset : Nat) :
    scanFrom offset used.length (used ++ rest) = scanFrom (offset + utf8Len used) 0 rest := by
  induction used generalizing offset with
  | nil => rfl
  | cons char used ih =>
    simp only [List.length_cons, List.cons_append, scanFrom]
    rw [ih, String.utf8Len_cons, Nat.add_assoc, Nat.add_comm (utf8Len used)]

/-- Blanks are passed over. -/
theorem scanFrom_blanks {used : List Char} (blanks : ∀ char ∈ used, isBlank char = true)
    (rest : List Char) (offset : Nat) :
    scanFrom offset 0 (used ++ rest) = scanFrom (offset + utf8Len used) 0 rest := by
  induction used generalizing offset with
  | nil => rfl
  | cons char used ih =>
    obtain ⟨blank, blanks⟩ := List.forall_mem_cons.1 blanks
    have piece : Piece.atFront char (used ++ rest) = ⟨.skipped, [char]⟩ := by
      simp [Piece.atFront, blank]
    simp only [List.cons_append, scanFrom, piece, List.length_singleton, Nat.sub_self]
    rw [ih blanks, String.utf8Len_cons, Nat.add_assoc, Nat.add_comm (utf8Len used)]

/-- The scan of a text after the piece at its front. -/
theorem scanFrom_atFront {first : Char} {more rest : List Char} {reading : Reading} (offset : Nat)
    (piece : Piece.atFront first (more ++ rest) = ⟨reading, first :: more⟩) :
    scanFrom offset 0 (first :: more ++ rest) =
      let span : Span := ⟨offset, offset + utf8Len (first :: more)⟩
      let later := scanFrom (offset + utf8Len (first :: more)) 0 rest
      match reading with
      | .skipped => later
      | .lexeme lexeme => later.map (⟨lexeme, span⟩ :: ·)
      | .tooLarge => .error (.tooLarge span)
      | .unexpected => .error (.unexpected (String.ofList (first :: more)) span) := by
  have passed : scanFrom (offset + first.utf8Size) more.length (more ++ rest)
      = scanFrom (offset + utf8Len (first :: more)) 0 rest := by
    rw [scanFrom_append, String.utf8Len_cons, Nat.add_assoc, Nat.add_comm (utf8Len more)]
  simp only [List.cons_append, scanFrom, piece, List.length_cons, Nat.add_sub_cancel, passed,
    width_eq]
  cases reading with
  | lexeme lexeme => cases scanFrom (offset + utf8Len (first :: more)) 0 rest <;> rfl
  | skipped => rfl
  | tooLarge => rfl
  | unexpected => rfl

/-- The characters of a piece that obeys the rules stand at the front, and there is one at least. -/
theorem front_of_obeys {text : List Char} {piece : Piece} (obeys : piece.Obeys text) :
    piece.characters <+: text ∧ piece.characters ≠ [] := by
  have nonempty {rule : Rule} (longest : rule.IsLongest text piece.characters) :
      piece.characters <+: text ∧ piece.characters ≠ [] := by
    obtain ⟨_, _, spelled, -⟩ := longest.matched.exists_first
    exact ⟨longest.front, spelled ▸ List.cons_ne_nil _ _⟩
  unfold Piece.Obeys at obeys
  split at obeys
  · exact nonempty obeys.choose_spec.2
  · exact nonempty obeys.choose_spec.1
  · exact nonempty obeys.1
  · exact ⟨obeys.1, obeys.2.1⟩

/-- What comes of reading the end `text` of a source behind the characters `before`. -/
def Judges (source before text : List Char) : Except ParseError (List Token) → Prop
  | .ok tokens => Reads before text tokens
  | .error error => Refuses source text error

section

variable {source before used rest : List Char} {rule : Rule}
  {result : Except ParseError (List Token)}

/-- A text is refused where what is left behind a match is refused. -/
theorem Refuses.further {error : ParseError} (longest : rule.IsLongest (used ++ rest) used)
    (isRead : rule.isSkipped = true ∨ (rule.lexeme? used).isSome = true)
    (refuses : Refuses source rest error) : Refuses source (used ++ rest) error := by
  cases error with
  | unexpected characters span =>
    obtain ⟨here, later, reaches, others⟩ := refuses
    exact ⟨here, later, .further longest isRead reaches, others⟩
  | expected wanted found span => exact refuses
  | tooLarge span =>
    obtain ⟨here, later, reaches, others⟩ := refuses
    exact ⟨here, later, .further longest isRead reaches, others⟩

theorem Judges.skipped (isSkipped : rule.isSkipped = true)
    (longest : rule.IsLongest (used ++ rest) used)
    (judges : Judges source (before ++ used) rest result) :
    Judges source before (used ++ rest) result :=
  match result, judges with
  | .ok _, reads => Reads.skipped isSkipped longest reads
  | .error _, refuses => refuses.further longest (.inl isSkipped)

theorem Judges.lexeme {lexeme : Lexeme} (isLexeme : rule.lexeme? used = some lexeme)
    (longest : rule.IsLongest (used ++ rest) used)
    (judges : Judges source (before ++ used) rest result) : Judges source before (used ++ rest)
      (result.map (⟨lexeme, ⟨utf8Len before, utf8Len (before ++ used)⟩⟩ :: ·)) :=
  match result, judges with
  | .ok _, reads => Reads.lexeme isLexeme longest reads
  | .error _, refuses => refuses.further longest (.inr (isLexeme ▸ rfl))

end

/-- Every scan is a reading by the rules. -/
theorem judges_scanFrom {source before text : List Char} (whole : source = before ++ text) :
    Judges source before text (scanFrom (utf8Len before) 0 text) := by
  -- A run of blanks and every other piece take at least one character.
  induction length : text.length using Nat.strong_induction_on generalizing before text with
  | _ size ih =>
    subst length
    have later {used rest : List Char} (nonempty : used ≠ []) (spelled : used ++ rest = text) :
        Judges source (before ++ used) rest (scanFrom (utf8Len (before ++ used)) 0 rest) := by
      refine ih _ ?_ (by rw [whole, List.append_assoc, spelled]) rfl
      rw [← spelled, List.length_append]
      exact Nat.lt_add_of_pos_left (List.length_pos_iff.2 nonempty)
    cases text with
    | nil => exact .ends before
    | cons first rest =>
      by_cases blank : isBlank first = true
      · have longest : Rule.IsLongest (first :: rest) .blanks _ := Rule.isLongest_blanks blank
        obtain ⟨nonempty, blanks⟩ := longest.matched
        obtain ⟨behind, spelled⟩ := longest.front
        have judges := later nonempty spelled
        rw [String.utf8Len_append, ← scanFrom_blanks blanks] at judges
        generalize (first :: rest).takeWhile isBlank = used at longest judges spelled
        rw [spelled] at judges
        rw [← spelled] at longest judges ⊢
        exact .skipped rfl longest judges
      · have obeys : Piece.Obeys (first :: rest) _ :=
          Piece.obeys_atFront (Bool.eq_false_iff.2 blank)
        obtain ⟨⟨behind, spelled⟩, nonempty⟩ := front_of_obeys obeys
        have judges := later nonempty spelled
        match piece : Piece.atFront first rest with
        | ⟨reading, []⟩ => exact absurd (congrArg Piece.characters piece) nonempty
        | ⟨reading, head :: more⟩ =>
          rw [piece] at obeys spelled judges
          obtain ⟨rfl, rfl⟩ : head = first ∧ more ++ behind = rest := List.cons.inj spelled
          rw [← List.cons_append, scanFrom_atFront _ piece]
          simp only [← String.utf8Len_append]
          cases reading with
          | skipped =>
            obtain ⟨rule, isSkipped, longest⟩ := obeys
            exact .skipped isSkipped longest judges
          | lexeme lexeme =>
            obtain ⟨rule, longest, isLexeme⟩ := obeys
            exact .lexeme isLexeme longest judges
          | tooLarge =>
            exact ⟨_, _, .here _, ⟨before, by rw [whole, List.append_assoc]; rfl, rfl, rfl⟩, obeys⟩
          | unexpected =>
            exact ⟨_, _, .here _, ⟨before, by rw [whole, List.append_assoc]; rfl, rfl, rfl⟩,
              rfl, obeys.2⟩

/-! ### What is read -/

namespace Reads

variable {before text : List Char} {tokens : List Token}

theorem exists_others (reads : Reads before text tokens) :
    ∃ others, tokens = others ++
        [⟨.endOfInput, ⟨utf8Len (before ++ text), utf8Len (before ++ text)⟩⟩] ∧
      ∀ token ∈ others, token.lexeme ≠ .endOfInput ∧ token.span.start < token.span.stop := by
  induction reads with
  | ends before => exact ⟨[], by rw [List.append_nil]; rfl, fun _ member => nomatch member⟩
  | skipped isSkipped longest reads ih =>
    rw [List.append_assoc] at ih
    exact ih
  | @lexeme before used rest rule lexeme tokens isLexeme longest reads ih =>
    obtain ⟨others, rfl, inside⟩ := ih
    rw [List.append_assoc]
    refine ⟨_ :: others, rfl, List.forall_mem_cons.2 ⟨⟨?_, ?_⟩, inside⟩⟩
    · rintro rfl
      cases rule <;> simp [Rule.lexeme?] at isLexeme
    · obtain ⟨_, _, rfl, -⟩ := longest.matched.exists_first
      have positive := Char.utf8Size_pos ‹Char›
      simp only [String.utf8Len_append, String.utf8Len_cons]
      omega

theorem ascending (reads : Reads before text tokens) :
    (∀ token ∈ tokens, utf8Len before ≤ token.span.start) ∧
      tokens.Pairwise fun first second => first.span.stop ≤ second.span.start := by
  induction reads with
  | ends before => exact ⟨by simp, List.pairwise_singleton _ _⟩
  | @skipped before used rest rule tokens isSkipped longest reads ih =>
    rw [String.utf8Len_append] at ih
    exact ⟨fun token member => Nat.le_trans (Nat.le_add_right _ _) (ih.1 token member), ih.2⟩
  | @lexeme before used rest rule lexeme tokens isLexeme longest reads ih =>
    refine ⟨List.forall_mem_cons.2 ⟨Nat.le_refl _, fun token member => ?_⟩, List.pairwise_cons.2 ih⟩
    rw [String.utf8Len_append] at ih
    exact Nat.le_trans (Nat.le_add_right _ _) (ih.1 token member)

theorem gaps {source : List Char} (reads : Reads before text tokens)
    (whole : source = before ++ text) :
    ∀ (previous : Span) (earlier gap : List Char), before = earlier ++ gap →
      previous.stop = utf8Len earlier → IsGap gap →
      (previous :: tokens.map Token.span).IsChain fun first second =>
        ∃ gap rest, Between source first.stop second.start gap rest ∧ IsGap gap := by
  induction reads with
  | ends before =>
    rintro previous earlier gap rfl stop isGap
    exact List.isChain_cons_cons.2 ⟨⟨gap, [], ⟨earlier, whole, stop, rfl⟩, isGap⟩, .singleton _⟩
  | @skipped before used rest rule tokens isSkipped longest reads ih =>
    rintro previous earlier gap rfl stop isGap
    exact ih (by rw [whole, List.append_assoc _ used]) previous earlier (gap ++ used)
      (List.append_assoc ..) stop (isGap.append isSkipped longest.matched)
  | @lexeme before used rest rule lexeme tokens isLexeme longest reads ih =>
    rintro previous earlier gap rfl stop isGap
    refine List.isChain_cons_cons.2 ⟨⟨gap, used ++ rest, ⟨earlier, whole, stop, rfl⟩, isGap⟩, ?_⟩
    exact ih (by rw [whole, List.append_assoc _ used]) _ _ [] (List.append_nil _).symm rfl .nil

theorem longest {source : List Char} (reads : Reads before text tokens)
    (whole : source = before ++ text) :
    ∀ token ∈ tokens, token.lexeme ≠ .endOfInput → ∃ (rule : Rule) (used rest : List Char),
      Between source token.span.start token.span.stop used rest ∧
        rule.IsLongest (used ++ rest) used ∧ rule.lexeme? used = some token.lexeme := by
  induction reads with
  | ends before =>
    intro token member noEnd
    obtain rfl := List.mem_singleton.1 member
    exact absurd rfl noEnd
  | skipped isSkipped longest reads ih => exact ih (by rw [whole, List.append_assoc])
  | @lexeme before used rest rule lexeme tokens isLexeme longest reads ih =>
    refine List.forall_mem_cons.2 ⟨fun _ => ?_, ih (by rw [whole, List.append_assoc])⟩
    exact ⟨rule, used, rest, ⟨before, by rw [whole, List.append_assoc], rfl, rfl⟩, longest,
      isLexeme⟩

end Reads

/-- The tokens that are scanned in a text are read from all of it. -/
theorem reads_of_scanFrom {source : List Char} {tokens : List Token}
    (scanned : scanFrom 0 0 source = .ok tokens) : Reads [] source tokens := by
  have judges : Judges source [] source (scanFrom 0 0 source) := judges_scanFrom rfl
  rwa [scanned] at judges

/-- The tokens that are scanned in a text divide it. -/
theorem divides_of_scanFrom {source : String} {tokens : List Token}
    (scanned : scanFrom 0 0 source.toList = .ok tokens) : Divides source tokens := by
  have reads := reads_of_scanFrom scanned
  constructor
  case ends =>
    rw [← String.utf8Len_toList]
    exact reads.exists_others
  case ascending => exact reads.ascending.2
  case gaps => exact reads.gaps rfl ⟨0, 0⟩ [] [] rfl rfl .nil
  case longest => exact reads.longest rfl

/-- A text in which no tokens are scanned is refused. -/
theorem refuses_of_scanFrom {source : List Char} {error : ParseError}
    (scanned : scanFrom 0 0 source = .error error) : Refuses source source error := by
  have judges : Judges source [] source (scanFrom 0 0 source) := judges_scanFrom rfl
  rwa [scanned] at judges

end Token

end Refactory
