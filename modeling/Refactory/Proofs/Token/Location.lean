import Refactory.Proofs.Token.Division

/-!
# The text in the span of a token

The offsets of characters in a text cut these characters out of it again (`Span.slice_of_between`).
So the tokens of a text whose offsets all fit into spans (`Text.InReach`) have the ranges and the
text that were scanned (`Token.scan_eq_of_inReach`), and their spans divide the text. In a longer
text they do not: behind the largest offset all spans are empty, and so is the text in them
(`Span.slice_beyond`).
-/
namespace Refactory

open String (utf8Len utf8Len_cons utf8Len_append)

variable {used : List Char} {start stop letters : Nat} {rest : List Char}

namespace Text

/-- A text whose offsets all fit into spans. -/
def InReach (text : String) : Prop := text.utf8ByteSize ≤ Span.largestOffset

instance (text : String) : Decidable (InReach text) :=
  inferInstanceAs (Decidable (text.utf8ByteSize ≤ Span.largestOffset))

theorem dropBytes?_append (before rest : List Char) :
    dropBytes? (utf8Len before) (before ++ rest) = some rest := by
  induction before with
  | nil => cases rest <;> rfl
  | cons char before ih =>
    have positive := char.utf8Size_pos
    rw [List.cons_append, dropBytes?, if_neg, if_pos, utf8Len_cons, Nat.add_sub_cancel, ih]
    all_goals rw [utf8Len_cons]; omega

theorem takeBytes?_append (used rest : List Char) :
    takeBytes? (utf8Len used) (used ++ rest) = some used := by
  induction used with
  | nil => cases rest <;> rfl
  | cons char used ih =>
    have positive := char.utf8Size_pos
    rw [List.cons_append, takeBytes?, if_neg, if_pos, utf8Len_cons, Nat.add_sub_cancel, ih]
    · rfl
    all_goals rw [utf8Len_cons]; omega

/-- A name of that many letters. -/
def longName (letters : Nat) : String := String.ofList (List.replicate letters 'x')

end Text

namespace Span

theorem ofRange_eq (startFits : start ≤ largestOffset)
    (stopFits : stop ≤ largestOffset) : ofRange start stop = ⟨start, stop⟩ := by
  rw [ofRange, Nat.min_eq_left startFits, Nat.min_eq_left stopFits]

/-- The offsets of characters cut these out of the text. -/
theorem slice_of_between {source : List Char}
    (between : Token.Between source start stop used rest) : slice ⟨start, stop⟩ source = used := by
  obtain ⟨before, rfl, rfl, rfl⟩ := between
  have width : length ⟨utf8Len before, utf8Len (before ++ used)⟩ = utf8Len used := by
    rw [length, utf8Len_append, Nat.add_sub_cancel_left]
  rw [slice, width, List.append_assoc, Text.dropBytes?_append, Option.bind_some,
    Text.takeBytes?_append, Option.getD_some]

/-- Nothing is found behind the largest offset. -/
theorem slice_beyond (text : List Char) (far : largestOffset ≤ start)
    (forward : start ≤ stop) : (ofRange start stop).slice text = [] := by
  rw [ofRange, Nat.min_eq_right far, Nat.min_eq_right (Nat.le_trans far forward), slice, length,
    Nat.sub_self]
  cases Text.dropBytes? largestOffset text with
  | none => rfl
  | some rest => cases rest <;> rfl

end Span

namespace Lexeme

/-- Between the quotes around some text is the text. -/
theorem unquoted_quoted (contents : List Char) :
    unquoted ('"' :: (contents ++ ['"'])) = contents := by
  simp [unquoted]

/-- The lexeme of characters is found again where they are. -/
theorem foundIn_eq {rule : Rule} {source : List Char} {span : Span} {lexeme : Lexeme}
    (isLexeme : rule.lexeme? used = some lexeme) (matched : rule.Matches used)
    (found : span.slice source = used) : lexeme.foundIn source span = lexeme := by
  cases rule with
  | word =>
    cases isLexeme
    rw [foundIn, found]
  | literal =>
    obtain ⟨contents, rfl, -⟩ := matched
    cases isLexeme
    rw [foundIn, found, unquoted_quoted, List.tail_cons, List.dropLast_concat]
  | digits =>
    simp only [Rule.lexeme?] at isLexeme
    split at isLexeme <;> cases isLexeme
    rfl
  | keyword | mark =>
    cases isLexeme
    rfl
  | blanks | comment => cases isLexeme

end Lexeme

namespace Token

theorem Between.start_le_stop {source : List Char}
    (between : Between source start stop used rest) : start ≤ stop := by
  obtain ⟨before, -, rfl, rfl⟩ := between
  rw [utf8Len_append]
  exact Nat.le_add_right _ _

theorem Between.stop_le {source : List Char}
    (between : Between source start stop used rest) : stop ≤ utf8Len source := by
  obtain ⟨before, rfl, -, rfl⟩ := between
  rw [utf8Len_append _ rest]
  exact Nat.le_add_right _ _

section

variable {source before text : List Char} {tokens : List Token}

/-- Where all offsets of a text fit into spans, its tokens have the ranges and the text that were
scanned. -/
theorem Reads.map_located (reads : Reads before text tokens) (whole : source = before ++ text)
    (fits : utf8Len source ≤ Span.largestOffset) : tokens.map (located source) = tokens := by
  induction reads with
  | ends before =>
    rw [List.append_nil] at whole
    have within : utf8Len before ≤ Span.largestOffset := whole ▸ fits
    simp only [List.map_cons, List.map_nil, located, Span.ofRange_eq within within, Lexeme.foundIn]
  | skipped isSkipped longest reads ih => exact ih (by rw [whole, List.append_assoc])
  | @lexeme before used rest rule lexeme tokens isLexeme longest reads ih =>
    have between : Between source (utf8Len before) (utf8Len (before ++ used)) used rest :=
      ⟨before, by rw [whole, List.append_assoc], rfl, rfl⟩
    have stopFits := Nat.le_trans between.stop_le fits
    have startFits := Nat.le_trans between.start_le_stop stopFits
    have found := Lexeme.foundIn_eq isLexeme longest.matched (Span.slice_of_between between)
    rw [List.map_cons, ih (by rw [whole, List.append_assoc]), located,
      Span.ofRange_eq startFits stopFits, found]

/-- Where all offsets of a text fit into spans, it is refused where scanning stops. -/
theorem Refuses.located_eq {error : ParseError} (refuses : Refuses source text error)
    (fits : utf8Len source ≤ Span.largestOffset) : error.located = error := by
  have same {span : Span} {used rest : List Char}
      (between : Between source span.start span.stop used rest) :
      Span.ofRange span.start span.stop = span := by
    have stopFits := Nat.le_trans between.stop_le fits
    exact Span.ofRange_eq (Nat.le_trans between.start_le_stop stopFits) stopFits
  cases error with
  | unexpected characters span =>
    obtain ⟨used, rest, -, between, -⟩ := refuses
    rw [ParseError.located, same between]
  | tooLarge span =>
    obtain ⟨used, rest, -, between, -⟩ := refuses
    rw [ParseError.located, same between]
  | expected wanted found span => cases refuses

end

/-- Where all offsets of a text fit into spans, its tokens are those that are scanned. -/
theorem scan_eq_of_inReach {source : String} (inReach : Text.InReach source) :
    scan source = scanFrom 0 0 source.toList := by
  have fits : utf8Len source.toList ≤ Span.largestOffset := by
    rwa [String.utf8Len_toList]
  rw [scan]
  cases scanned : scanFrom 0 0 source.toList with
  | ok tokens =>
    have same : tokens.map (located source.toList) = tokens :=
      (reads_of_scanFrom scanned).map_located (List.nil_append _).symm fits
    simp only [same]
  | error error => simp only [(refuses_of_scanFrom scanned).located_eq fits]

/-- Where all offsets of a text fit into spans, its lexemes are valid. -/
theorem valid_of_inReach {source : String} {tokens : List Token} (inReach : Text.InReach source)
    (scanned : scan source = .ok tokens) : Valid .scanned tokens := by
  rw [scan_eq_of_inReach inReach] at scanned
  exact valid_of_scanFrom scanned

/-- Behind the other tokens of a text is the end of the input. -/
theorem exists_others_of_scan {source : String} {tokens : List Token}
    (scanned : scan source = .ok tokens) :
    ∃ others, tokens = others ++
        [⟨.endOfInput, Span.ofRange source.utf8ByteSize source.utf8ByteSize⟩] ∧
      ∀ token ∈ others, token.lexeme ≠ .endOfInput := by
  obtain ⟨found, scannedFrom, rfl⟩ := exists_scanFrom_of_scan scanned
  obtain ⟨others, rfl, inside⟩ := (divides_of_scanFrom scannedFrom).ends
  refine ⟨others.map (located source.toList), by simp [located, Lexeme.foundIn], ?_⟩
  intro token member
  obtain ⟨other, isOther, rfl⟩ := List.mem_map.1 member
  have noEnd := (inside other isOther).1
  obtain ⟨lexeme, span⟩ := other
  cases lexeme <;> simp_all [located, Lexeme.foundIn]

/-! ### Texts that are too long -/

theorem toList_longName (letters : Nat) :
    (Text.longName letters).toList = List.replicate letters 'x' := String.toList_ofList

theorem utf8Len_longName (letters : Nat) : utf8Len (Text.longName letters).toList = letters := by
  rw [toList_longName]
  induction letters with
  | zero => rfl
  | succ letters ih =>
    rw [List.replicate_succ, utf8Len_cons, ih]
    rfl

/-- A long name is no keyword. -/
theorem ofWord_longName (letters : Nat) :
    Lexeme.ofWord (Text.longName (letters + 1)) = .identifier (Text.longName (letters + 1)) := by
  rw [Lexeme.ofWord]
  cases known : Keyword.ofSpelling? (Text.longName (letters + 1)) with
  | none => rfl
  | some reserved =>
    have spelled : reserved.spelling = Text.longName (letters + 1) :=
      beq_iff_eq.1 (List.find?_some known :)
    have first : reserved.spelling.toList.head? = some 'x' := by
      rw [spelled, toList_longName]
      rfl
    have other : ∀ reserved : Keyword, reserved.spelling.toList.head? ≠ some 'x' := by
      intro reserved
      cases reserved <;> decide
    exact absurd first (other reserved)

/-- Scanning goes on behind a long name. -/
theorem scanFrom_longName (letters : Nat) (separates : Separates rest) :
    scanFrom 0 0 ((Text.longName (letters + 1)).toList ++ rest) =
      (scanFrom (letters + 1) 0 rest).map
        (⟨.identifier (Text.longName (letters + 1)), ⟨0, letters + 1⟩⟩ :: ·) := by
  have width := utf8Len_longName (letters + 1)
  have isWord := ofWord_longName letters
  have inside : (List.replicate letters 'x').all isWordRest = true := by
    rw [List.all_replicate]
    cases letters <;> rfl
  rw [toList_longName, List.replicate_succ] at width ⊢
  have piece : Piece.atFront 'x' (List.replicate letters 'x' ++ rest) =
      ⟨.lexeme (.identifier (Text.longName (letters + 1))), 'x' :: List.replicate letters 'x'⟩ := by
    rw [atFront_word rfl, Piece.word, takeWhile_append inside separates, ← List.replicate_succ,
      ← isWord, Text.longName]
  rw [scanFrom_atFront 0 piece]
  simp only [width, Nat.zero_add]

/-- A character that does not go on with a word comes next. -/
theorem separates_of_head {first : Char} (starts : rest.head? = some first)
    (ends : isWordRest first = false) : Separates rest := by
  intro char next
  obtain rfl := Option.some.inj (starts.symm.trans next)
  exact ends

/-- The tokens of a text that starts with a long name. -/
theorem scan_longName {rest : String} {tokens : List Token}
    (fits : letters + 1 ≤ Span.largestOffset) (separates : Separates rest.toList)
    (scanned : scanFrom (letters + 1) 0 rest.toList = .ok tokens) :
    ∃ source, scan (Text.longName (letters + 1) ++ rest) = .ok
      (⟨.identifier (Text.longName (letters + 1)), ⟨0, letters + 1⟩⟩ ::
        tokens.map (located source)) := by
  refine ⟨(Text.longName (letters + 1) ++ rest).toList, ?_⟩
  have between : Between (Text.longName (letters + 1) ++ rest).toList 0 (letters + 1)
      (Text.longName (letters + 1)).toList rest.toList := by
    refine ⟨[], ?_, rfl, ?_⟩
    · exact String.toList_append
    · rw [List.nil_append, utf8Len_longName]
  have first : located (Text.longName (letters + 1) ++ rest).toList
      ⟨.identifier (Text.longName (letters + 1)), ⟨0, letters + 1⟩⟩ =
        ⟨.identifier (Text.longName (letters + 1)), ⟨0, letters + 1⟩⟩ := by
    rw [located, Span.ofRange_eq (Nat.zero_le _) fits, Lexeme.foundIn,
      Span.slice_of_between between, String.ofList_toList]
  rw [scan, String.toList_append, scanFrom_longName letters separates, scanned]
  rw [String.toList_append] at first
  simp only [Except.map, List.map_cons, first]

/-- A name behind the largest offset is empty. -/
theorem located_beyond (source : List Char) (name : String)
    (far : Span.largestOffset ≤ start) (forward : start ≤ stop) :
    located source ⟨.identifier name, ⟨start, stop⟩⟩ =
      ⟨.identifier "", Span.ofRange start stop⟩ := by
  rw [located, Lexeme.foundIn, Span.slice_beyond source far forward, String.ofList_nil]

/-- Behind all offsets that there are, the second name of a sum is empty. -/
theorem scan_sum_beyond (far : letters + 1 = Span.largestOffset) :
    scan (Text.longName (letters + 1) ++ "+y;") = .ok
      [⟨.identifier (Text.longName (letters + 1)), ⟨0, letters + 1⟩⟩,
        ⟨.mark .plus, .ofRange (letters + 1) (letters + 2)⟩,
        ⟨.identifier "", .ofRange (letters + 2) (letters + 3)⟩,
        ⟨.mark .semi, .ofRange (letters + 3) (letters + 4)⟩,
        ⟨.endOfInput, .ofRange (letters + 4) (letters + 4)⟩] := by
  have rest : scanFrom (letters + 1) 0 "+y;".toList = .ok
      [⟨.mark .plus, ⟨letters + 1, letters + 2⟩⟩, ⟨.identifier "y", ⟨letters + 2, letters + 3⟩⟩,
        ⟨.mark .semi, ⟨letters + 3, letters + 4⟩⟩, ⟨.endOfInput, ⟨letters + 4, letters + 4⟩⟩] := rfl
  obtain ⟨source, scanned⟩ := scan_longName (Nat.le_of_eq far) (separates_of_head rfl rfl) rest
  have beyond : Span.largestOffset ≤ letters + 2 := far ▸ Nat.le_succ _
  rw [scanned, List.map_cons, List.map_cons, located_beyond source "y" beyond (Nat.le_succ _)]
  rfl

/-- The text of the sum whose second name is lost has no second name. -/
theorem scan_text_of_sum_beyond (far : letters + 1 = Span.largestOffset) :
    scan (Text.longName (letters + 1) ++ (" + " ++ "" ++ ";\n")) = .ok
      [⟨.identifier (Text.longName (letters + 1)), ⟨0, letters + 1⟩⟩,
        ⟨.mark .plus, .ofRange (letters + 2) (letters + 3)⟩,
        ⟨.mark .semi, .ofRange (letters + 4) (letters + 5)⟩,
        ⟨.endOfInput, .ofRange (letters + 6) (letters + 6)⟩] := by
  have rest : scanFrom (letters + 1) 0 (" + " ++ "" ++ ";\n").toList = .ok
      [⟨.mark .plus, ⟨letters + 2, letters + 3⟩⟩, ⟨.mark .semi, ⟨letters + 4, letters + 5⟩⟩,
        ⟨.endOfInput, ⟨letters + 6, letters + 6⟩⟩] := rfl
  obtain ⟨source, scanned⟩ := scan_longName (Nat.le_of_eq far) (separates_of_head rfl rfl) rest
  rw [scanned]
  rfl

/-- Where the sum ends at the largest offset, its tokens are those that are scanned. -/
theorem scan_sum_inReach (near : letters + 4 = Span.largestOffset) :
    Text.InReach (Text.longName (letters + 1) ++ "+y;") ∧
      scan (Text.longName (letters + 1) ++ "+y;") = .ok [
        ⟨.identifier (Text.longName (letters + 1)), ⟨0, letters + 1⟩⟩,
        ⟨.mark .plus, ⟨letters + 1, letters + 2⟩⟩, ⟨.identifier "y", ⟨letters + 2, letters + 3⟩⟩,
        ⟨.mark .semi, ⟨letters + 3, letters + 4⟩⟩, ⟨.endOfInput, ⟨letters + 4, letters + 4⟩⟩] := by
  have inReach : Text.InReach (Text.longName (letters + 1) ++ "+y;") := by
    rw [Text.InReach, String.utf8ByteSize_append, ← String.utf8Len_toList, utf8Len_longName, ← near]
    exact Nat.le_refl _
  refine ⟨inReach, ?_⟩
  rw [scan_eq_of_inReach inReach, String.toList_append,
    scanFrom_longName letters (separates_of_head rfl rfl)]
  rfl

/-- In the text of that sum, which has spaces, the second name is beyond the largest offset. -/
theorem scan_text_of_sum_inReach (near : letters + 4 = Span.largestOffset) :
    scan (Text.longName (letters + 1) ++ (" + " ++ "y" ++ ";\n")) = .ok
      [⟨.identifier (Text.longName (letters + 1)), ⟨0, letters + 1⟩⟩,
        ⟨.mark .plus, .ofRange (letters + 2) (letters + 3)⟩,
        ⟨.identifier "", .ofRange (letters + 4) (letters + 5)⟩,
        ⟨.mark .semi, .ofRange (letters + 5) (letters + 6)⟩,
        ⟨.endOfInput, .ofRange (letters + 7) (letters + 7)⟩] := by
  have rest : scanFrom (letters + 1) 0 (" + " ++ "y" ++ ";\n").toList = .ok
      [⟨.mark .plus, ⟨letters + 2, letters + 3⟩⟩, ⟨.identifier "y", ⟨letters + 4, letters + 5⟩⟩,
        ⟨.mark .semi, ⟨letters + 5, letters + 6⟩⟩, ⟨.endOfInput, ⟨letters + 7, letters + 7⟩⟩] := rfl
  obtain ⟨source, scanned⟩ := scan_longName (by omega) (separates_of_head rfl rfl) rest
  rw [scanned, List.map_cons, List.map_cons,
    located_beyond source "y" (Nat.le_of_eq near.symm) (Nat.le_succ _)]
  rfl

/-! ### How texts are divided -/

/-- The ranges that are scanned in a text divide it, or it is refused: tokens are the longest
matches, with nothing but blanks and comments between them, and a text without tokens is refused at
the first number that is too large and the first characters that nothing matches. The tokens and the
error have these ranges as spans, which changes nothing where all offsets fit into spans. -/
theorem divides_or_refuses (source : String) :
    match Token.scan source with
    | .ok tokens => ∃ ranges, Divides source ranges ∧ tokens = ranges.map (located source.toList) ∧
        (Text.InReach source → tokens = ranges)
    | .error error => ∃ refusal, Refuses source.toList source.toList refusal ∧
        error = refusal.located ∧ (Text.InReach source → error = refusal) := by
  have same (inReach : Text.InReach source) := scan_eq_of_inReach inReach
  cases scanned : scanFrom 0 0 source.toList with
  | ok ranges =>
    have located : scan source = .ok (ranges.map (located source.toList)) := by
      rw [scan, scanned]
    rw [located]
    refine ⟨ranges, divides_of_scanFrom scanned, rfl, fun inReach => ?_⟩
    rw [located, scanned] at same
    exact Except.ok.inj (same inReach)
  | error refusal =>
    have located : scan source = .error refusal.located := by
      rw [scan, scanned]
    rw [located]
    refine ⟨refusal, refuses_of_scanFrom scanned, rfl, fun inReach => ?_⟩
    rw [located, scanned] at same
    exact Except.error.inj (same inReach)

/-- The spans of a text that is too long do not divide it: the name in this one takes all offsets,
and what comes after it takes none. -/
theorem not_divides_sum_beyond : ∃ tokens,
    scan (Text.longName Span.largestOffset ++ "+y;") = .ok tokens ∧
      ¬Divides (Text.longName Span.largestOffset ++ "+y;") tokens := by
  obtain ⟨letters, far⟩ : ∃ letters, letters + 1 = Span.largestOffset := ⟨4294967294, rfl⟩
  rw [← far]
  refine ⟨_, scan_sum_beyond far, fun divides => ?_⟩
  have proper := divides.start_lt_stop (List.mem_cons_of_mem _ (List.mem_cons_self ..)) (by simp)
  simp only [Span.ofRange, far] at proper
  omega

end Token

end Refactory
