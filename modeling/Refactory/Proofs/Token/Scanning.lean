import Refactory.Proofs.Grammar.Readable

/-!
# Scanning written lexemes

A text that writes lexemes one after the other is scanned as these lexemes, if none of them runs
into what comes after it: a word or number must not be followed by a character that goes on with
it (`Token.Separates`), nor a mark by one that makes a longer mark of it (`Mark.fuses`).

`Token.Scans` says which lexemes a list of characters is scanned as. The lemmas about it put one
lexeme, or one blank, in front of a text.
-/
namespace Refactory

variable {first char : Char} {rest : List Char} {lexemes : List Lexeme}

namespace Token

/-- Characters that are scanned as lexemes, of which the last is the end of the input. -/
def Scans (characters : List Char) (lexemes : List Lexeme) : Prop :=
  ∀ offset, ∃ tokens, scanFrom offset 0 characters = .ok tokens ∧ Token.lexemes tokens = lexemes

/-- The characters of a piece are passed over once the piece is read. -/
theorem exists_scanFrom_append (used rest : List Char) (offset : Nat) :
    ∃ further, scanFrom offset used.length (used ++ rest) = scanFrom further 0 rest := by
  induction used generalizing offset with
  | nil => exact ⟨offset, rfl⟩
  | cons char used ih =>
    simp only [List.length_cons, List.cons_append, scanFrom]
    exact ih _

namespace Scans

/-- The end of a text is the end of the input. -/
theorem nil : Scans [] [.endOfInput] := fun _ => ⟨_, rfl, rfl⟩

/-- A lexeme is scanned before the rest. -/
theorem lexeme {used : List Char} {lexeme : Lexeme}
    (piece : Piece.atFront first (used ++ rest) = ⟨.lexeme lexeme, first :: used⟩)
    (scans : Scans rest lexemes) : Scans (first :: used ++ rest) (lexeme :: lexemes) := by
  intro offset
  obtain ⟨further, passed⟩ := exists_scanFrom_append used rest (offset + first.utf8Size)
  obtain ⟨tokens, scanned, same⟩ := scans further
  refine ⟨⟨lexeme, ⟨offset, offset + Piece.width ⟨.lexeme lexeme, first :: used⟩⟩⟩ ::
    tokens, ?_, ?_⟩
  · simp only [List.cons_append, scanFrom, piece, List.length_cons, Nat.add_sub_cancel, passed,
      scanned]
    rfl
  · rw [lexemes_cons, same]

/-- A blank is passed over. -/
theorem blank (isBlank : isBlank char = true)
    (scans : Scans rest lexemes) : Scans (char :: rest) lexemes := by
  intro offset
  obtain ⟨tokens, scanned, same⟩ := scans (offset + char.utf8Size)
  refine ⟨tokens, ?_, same⟩
  have piece : Piece.atFront char rest = ⟨.skipped, [char]⟩ := by simp [Piece.atFront, isBlank]
  simpa only [scanFrom, piece, List.length_singleton, Nat.sub_self] using scanned

end Scans

/-- A character that goes on with a word or number does not come next. -/
def Separates (rest : List Char) : Prop := ∀ char, rest.head? = some char → isWordRest char = false

theorem takeWhile_append {test : Char → Bool} {used : List Char}
    (inside : used.all test = true) (stops : ∀ char, rest.head? = some char → test char = false) :
    (used ++ rest).takeWhile test = used := by
  rw [List.takeWhile_append_of_pos (List.all_eq_true.1 inside)]
  cases rest with
  | nil => simp
  | cons char rest => simp [stops char rfl]

/-- A character that starts a word is no blank, digit or slash. -/
theorem atFront_word (starts : isWordStart first = true) (rest : List Char) :
    Piece.atFront first rest = Piece.word first rest := by
  have differs : first ≠ ' ' ∧ first ≠ '\t' ∧ first ≠ '\r' ∧ first ≠ '\n' ∧ first ≠ '/' := by
    refine ⟨?_, ?_, ?_, ?_, ?_⟩ <;> rintro rfl <;> revert starts <;> decide
  simp [Piece.atFront, isBlank, starts, differs]

/-- A word is scanned as its lexeme. -/
theorem Scans.word {text : String} {letters : List Char}
    (spelled : text.toList = first :: letters) (starts : isWordStart first = true)
    (inside : letters.all isWordRest = true) (separates : Separates rest)
    (scans : Scans rest lexemes) :
    Scans (text.toList ++ rest) (Lexeme.ofWord text :: lexemes) := by
  rw [spelled]
  refine Scans.lexeme ?_ scans
  rw [atFront_word starts, Piece.word, takeWhile_append inside separates, ← spelled,
    String.ofList_toList]

/-- A name is scanned as an identifier. -/
theorem Scans.name {name : String}
    (isName : Lexeme.isName name = true) (separates : Separates rest) (scans : Scans rest lexemes) :
    Scans (name.toList ++ rest) (.identifier name :: lexemes) := by
  unfold Lexeme.isName at isName
  split at isName
  · cases isName
  · rename_i first letters spelled
    simp only [Bool.and_eq_true, Option.isNone_iff_eq_none] at isName
    have scanned := Scans.word spelled isName.1.1 isName.1.2 separates scans
    rwa [Lexeme.ofWord, isName.2] at scanned

/-- A keyword is scanned as itself. -/
theorem Scans.keyword (word : Keyword)
    (separates : Separates rest) (scans : Scans rest lexemes) :
    Scans (word.spelling.toList ++ rest) (.keyword word :: lexemes) := by
  have known : Lexeme.ofWord word.spelling = .keyword word := by cases word <;> decide
  rw [← known]
  cases word <;> exact Scans.word rfl (by decide) (by decide) separates scans

/-- A digit starts no word, is no blank and no slash. -/
theorem atFront_number (isDigit : isDigit first = true) (rest : List Char) :
    Piece.atFront first rest = Piece.number first rest := by
  have inside : first.toNat ∈ List.range' 48 10 := by
    simp only [Refactory.isDigit, Bool.and_eq_true, decide_eq_true_eq, Char.le_def,
      UInt32.le_iff_toNat_le] at isDigit
    simp only [List.mem_range'_1]
    exact ⟨isDigit.1, Nat.lt_succ_of_le isDigit.2⟩
  have known : first = Char.ofNat first.toNat := (Char.ofNat_toNat first).symm
  generalize first.toNat = code at inside known
  subst known
  have notWord : isWordStart (Char.ofNat code) = false := by
    revert code
    decide
  have notBlank : isBlank (Char.ofNat code) = false := by
    revert code
    decide
  have notSlash : (Char.ofNat code == '/') = false := by
    revert code
    decide
  simp [Piece.atFront, notBlank, notSlash, notWord, isDigit]

/-- A digit is a character that goes on with a word. -/
theorem isDigit_eq_false (stops : isWordRest char = false) : isDigit char = false := by
  simp only [isWordRest, Bool.or_eq_false_iff] at stops
  exact stops.2

/-- A number is scanned as an integer literal. -/
theorem Scans.integer {value : Nat}
    (fits : value ≤ Lexeme.largestInteger) (separates : Separates rest)
    (scans : Scans rest lexemes) :
    Scans ((toString value).toList ++ rest) (.integer value :: lexemes) := by
  have spelled : (toString value).toList = Nat.toDigits 10 value := Nat.toList_repr
  have digits : (Nat.toDigits 10 value).all isDigit = true := by
    refine List.all_eq_true.2 fun char member => ?_
    have isDigit := Nat.isDigit_of_mem_toDigits (by decide) (by decide) member
    simpa [Char.isDigit, Refactory.isDigit, Char.le_def] using isDigit
  rw [spelled]
  have read : Lexeme.valueOfDigits (Nat.toDigits 10 value) = value := Nat.ofDigitChars_ten_toDigits
  match written : Nat.toDigits 10 value with
  | [] => exact absurd written Nat.toDigits_ne_nil
  | first :: others =>
    rw [written] at digits read
    simp only [List.all_cons, Bool.and_eq_true] at digits
    refine Scans.lexeme ?_ scans
    rw [atFront_number digits.1, Piece.number,
      takeWhile_append digits.2 fun char next => isDigit_eq_false (separates char next)]
    simp only [read, if_pos fits]

/-- String contents end at the quote after them. -/
theorem literalContents_append {contents : List Char} (rest : List Char)
    (isContents : Lexeme.literalContents contents = contents) :
    Lexeme.literalContents (contents ++ '"' :: rest) = contents := by
  fun_induction Lexeme.literalContents contents with
  | case1 => rfl
  | case2 => simp at isContents
  | case3 => simp at isContents
  | case4 escaped others notEnd ih =>
    simp only [List.cons.injEq, true_and] at isContents
    simp only [List.cons_append, Lexeme.literalContents, notEnd, ih isContents]
    rfl
  | case5 => simp at isContents
  | case6 char others notEscape notEscaped ends ih =>
    simp only [List.cons.injEq, true_and] at isContents
    have plain : char ≠ '\\' := by
      rintro rfl
      cases others with
      | nil => exact notEscape rfl rfl
      | cons escaped others => exact notEscaped escaped others rfl rfl
    rw [List.cons_append, Lexeme.literalContents]
    · simp only [ends, ih isContents]
      rfl
    · exact fun same _ => plain same
    · exact fun _ _ same _ => plain same

/-- A string literal is scanned as its contents. -/
theorem Scans.text {contents : String}
    (isContents : Lexeme.isContents contents = true) (scans : Scans rest lexemes) :
    Scans ('"' :: (contents.toList ++ '"' :: rest)) (.text contents :: lexemes) := by
  have ends := literalContents_append rest (beq_iff_eq.1 isContents)
  have piece : Piece.atFront '"' ((contents.toList ++ ['"']) ++ rest)
      = ⟨.lexeme (.text contents), '"' :: (contents.toList ++ ['"'])⟩ := by
    rw [List.append_assoc]
    have front : Piece.atFront '"' (contents.toList ++ (['"'] ++ rest))
        = Piece.literal (contents.toList ++ '"' :: rest) := rfl
    rw [front, Piece.literal, ends]
    simp
  simpa using Scans.lexeme piece scans

end Token

/-- A mark that becomes a longer one, or a comment, with a certain character after it. -/
def Mark.fuses (mark : Mark) (char : Char) : Bool :=
  Mark.long.any (fun other => other.spelling.toList == mark.spelling.toList ++ [char]) ||
    (mark == .slash && char == '/')

/-- The marks that become no longer one, whatever comes after them. -/
def Mark.isWhole : Mark → Bool
  | .lt | .gt | .bang | .eq | .plus | .minus | .star | .slash => false
  | _ => true

namespace Mark

/-- What makes a longer mark, or a comment, of a mark before it. -/
theorem fuses_iff {mark : Mark} : mark.fuses char = true ↔ (mark, char) ∈
    [(lt, '='), (gt, '='), (bang, '='), (eq, '='), (eq, '>'), (plus, '='), (plus, '+'),
      (minus, '='), (minus, '-'), (star, '='), (slash, '='), (slash, '/')] := by
  cases mark <;> simp [fuses, long, spelling, @eq_comm _ char, or_comm]

theorem fuses_eq_false_of_isWhole {mark : Mark} (isWhole : mark.isWhole = true) (char : Char) :
    mark.fuses char = false := by
  rw [Bool.eq_false_iff, Ne, fuses_iff]
  cases mark <;> simp_all [Mark.isWhole]

/-- Only a few characters make a longer mark of a mark before them. -/
theorem fuses_eq_false {mark : Mark} {char : Char}
    (other : '=' ≠ char ∧ '>' ≠ char ∧ '+' ≠ char ∧ '-' ≠ char ∧ '/' ≠ char) :
    mark.fuses char = false := by
  rw [Bool.eq_false_iff, Ne, fuses_iff]
  simp [@eq_comm _ char, other]

/-- A mark that is no equality sign, plus, minus or slash fuses with an equality sign alone, and a
minus with another one too. -/
theorem fuses_eq_false_of_ne {mark : Mark} {char : Char}
    (sort : mark = .lt ∨ mark = .gt ∨ mark = .bang ∨ mark = .minus ∧ '-' ≠ char)
    (other : '=' ≠ char) : mark.fuses char = false := by
  rw [Bool.eq_false_iff, Ne, fuses_iff]
  rcases sort with rfl | rfl | rfl | ⟨rfl, noMinus⟩ <;> simp_all [@eq_comm _ char]

end Mark

namespace Token

/-- The mark at the front of a text is the one that was written there, if it does not fuse with what
comes after it. -/
theorem atFront_mark {mark : Mark} {first : Char} {used rest : List Char}
    (spelled : mark.spelling.toList = first :: used)
    (apart : ∀ char, rest.head? = some char → mark.fuses char = false) :
    Piece.atFront first (used ++ rest) = ⟨.lexeme (.mark mark), first :: used⟩ := by
  cases mark <;> simp only [Mark.spelling, String.reduceToList, List.cons.injEq] at spelled <;>
    obtain ⟨rfl, rfl⟩ := spelled
  all_goals first | rfl | skip
  all_goals
    cases rest with
    | nil => rfl
    | cons char rest =>
      have differs := apart char rfl
      simp [Mark.fuses, Mark.long, Mark.spelling] at differs
      simp [Piece.atFront, Piece.mark, isBlank, isWordStart, isDigit, Mark.all, Mark.long,
        Mark.short, Mark.spelling, List.isPrefixOf, differs]

/-- A mark is scanned as itself. -/
theorem Scans.mark (mark : Mark) {rest : List Char} {lexemes : List Lexeme}
    (apart : ∀ char, rest.head? = some char → mark.fuses char = false)
    (scans : Scans rest lexemes) :
    Scans (mark.spelling.toList ++ rest) (.mark mark :: lexemes) := by
  match spelled : mark.spelling.toList with
  | [] => cases mark <;> simp [Mark.spelling] at spelled
  | first :: used => exact Scans.lexeme (atFront_mark spelled apart) scans

/-- A text that starts with the first character of a mark, which starts nothing else, is scanned as
such a mark first. -/
theorem Scans.exists_mark {char : Char} {rest : List Char} {first : Lexeme} {more : List Lexeme}
    (scans : Scans (char :: rest) (first :: more))
    (front : Piece.atFront char rest = Piece.mark char rest)
    (short : ∃ mark ∈ Mark.all, mark.spelling.toList = [char]) :
    ∃ mark : Mark, first = .mark mark ∧ mark.spelling.toList.head? = some char := by
  obtain ⟨tokens, scanned, same⟩ := scans 0
  obtain ⟨alone, known, spelled⟩ := short
  have some :
      (Mark.all.find? fun sign => sign.spelling.toList.isPrefixOf (char :: rest)).isSome := by
    rw [List.find?_isSome]
    exact ⟨alone, known, by simp [spelled, List.isPrefixOf]⟩
  obtain ⟨mark, found⟩ := Option.isSome_iff_exists.1 some
  have piece : Piece.atFront char rest = ⟨.lexeme (.mark mark), mark.spelling.toList⟩ := by
    rw [front, Piece.mark, found]
  simp only [scanFrom, piece] at scanned
  refine ⟨mark, ?_, ?_⟩
  · match later : scanFrom (0 + char.utf8Size) (mark.spelling.toList.length - 1) rest with
    | .error error =>
      rw [later] at scanned
      cases scanned
    | .ok others =>
      rw [later] at scanned
      obtain rfl := Except.ok.inj scanned
      exact ((List.cons.inj same).1).symm
  · have starts := List.find?_some found
    match spelledMark : mark.spelling.toList with
    | [] => cases mark <;> simp [Mark.spelling] at spelledMark
    | head :: others =>
      simp only [spelledMark, List.isPrefixOf, Bool.and_eq_true, beq_iff_eq] at starts
      rw [starts.1, List.head?_cons]

/-- What is taken as string contents is taken as it stands. -/
theorem literalContents_literalContents (chars : List Char) :
    Lexeme.literalContents (Lexeme.literalContents chars) = Lexeme.literalContents chars := by
  fun_induction Lexeme.literalContents chars with
  | case1 => rfl
  | case2 => rfl
  | case3 => rfl
  | case4 escaped others notEnd ih => simp [Lexeme.literalContents, notEnd, ih]
  | case5 => rfl
  | case6 char others notEscape notEscaped ends ih =>
    have plain : char ≠ '\\' := by
      rintro rfl
      cases others with
      | nil => exact notEscape rfl rfl
      | cons escaped others => exact notEscaped escaped others rfl rfl
    rw [Lexeme.literalContents]
    · simp [ends, ih]
    · exact fun same _ => plain same
    · exact fun _ _ same _ => plain same

/-- The lexeme at the front of a text is valid. -/
theorem isValid_of_atFront {characters : List Char} {lexeme : Lexeme}
    (piece : Piece.atFront first rest = ⟨.lexeme lexeme, characters⟩) :
    lexeme.IsValid .scanned := by
  unfold Piece.atFront at piece
  split at piece
  · cases piece
  split at piece
  · cases piece
  split at piece
  · rename_i starts
    simp only [Piece.word, Piece.mk.injEq, Reading.lexeme.injEq] at piece
    obtain ⟨rfl, -⟩ := piece
    unfold Lexeme.ofWord
    split
    · trivial
    · rename_i unknown
      have inside : (rest.takeWhile isWordRest).all isWordRest = true := List.all_takeWhile
      simp only [Lexeme.IsValid, Spelling.isName_scanned, Lexeme.isName, String.toList_ofList,
        starts, inside, unknown, Option.isNone_none, Bool.and_self]
  split at piece
  · simp only [Piece.number, Piece.mk.injEq] at piece
    split at piece
    · rename_i fits
      obtain ⟨same, -⟩ := piece
      cases same
      exact fits
    · cases piece.1
  split at piece
  · unfold Piece.literal at piece
    dsimp only at piece
    split at piece <;> cases piece
    simp [Lexeme.IsValid, Lexeme.isContents, String.toList_ofList, literalContents_literalContents]
  · unfold Piece.mark at piece
    split at piece <;> cases piece
    trivial

/-- Every lexeme of a text is valid. -/
theorem valid_of_scanFrom {chars : List Char} {offset passed : Nat} {tokens : List Token}
    (scanned : scanFrom offset passed chars = .ok tokens) : Valid .scanned tokens := by
  induction chars generalizing offset passed tokens with
  | nil =>
    obtain rfl := Except.ok.inj scanned
    intro token member
    obtain rfl := List.mem_singleton.1 member
    trivial
  | cons char rest ih =>
    cases passed with
    | succ passed => exact ih scanned
    | zero =>
      simp only [scanFrom] at scanned
      split at scanned
      · exact ih scanned
      · rename_i lexeme read
        match later : scanFrom (offset + char.utf8Size)
            ((Piece.atFront char rest).characters.length - 1) rest with
        | .error error =>
          rw [later] at scanned
          cases scanned
        | .ok others =>
          rw [later] at scanned
          obtain rfl := Except.ok.inj scanned
          have first : lexeme.IsValid .scanned := by
            match piece : Piece.atFront char rest with
            | ⟨reading, characters⟩ =>
              rw [piece] at read
              obtain rfl : reading = .lexeme lexeme := read
              exact isValid_of_atFront piece
          intro token member
          rcases List.mem_cons.1 member with rfl | member
          · exact first
          · exact ih later token member
      · cases scanned
      · cases scanned

/-- The tokens of a text are those that are scanned, each with the text that is found in its
span. -/
theorem exists_scanFrom_of_scan {source : String} {tokens : List Token}
    (scanned : scan source = .ok tokens) : ∃ others, scanFrom 0 0 source.toList = .ok others ∧
      tokens = others.map (located source.toList) := by
  rw [scan] at scanned
  cases scannedFrom : scanFrom 0 0 source.toList with
  | error error => simp [scannedFrom] at scanned
  | ok others =>
    rw [scannedFrom] at scanned
    exact ⟨others, rfl, (Except.ok.inj scanned).symm⟩

/-- Whatever its name or its contents are, a lexeme that is found again is valid. -/
theorem isValid_located {source : List Char} {token : Token}
    (valid : token.lexeme.IsValid .scanned) :
    (located source token).lexeme.IsValid .any := by
  obtain ⟨lexeme, span⟩ := token
  cases lexeme with
  | integer value => exact valid
  | _ => trivial

/-- Every lexeme of a text is valid, but for its name or its contents. -/
theorem valid_of_scan {source : String} {tokens : List Token} (scanned : scan source = .ok tokens) :
    Valid .any tokens := by
  obtain ⟨others, scannedFrom, rfl⟩ := exists_scanFrom_of_scan scanned
  intro token member
  obtain ⟨other, inside, rfl⟩ := List.mem_map.1 member
  exact isValid_located (valid_of_scanFrom scannedFrom other inside)

end Token

end Refactory
