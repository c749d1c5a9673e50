import Refactory.Proofs.Token.Scanning

/-!
# The rules of tokens

What the lexemes of the language look like, said of lists of characters without a scanner: each rule
matches some of them (`Rule.Matches`), and two rules match what is passed over. The longest match at
the front of a text (`Rule.IsLongest`) is what `Piece.atFront` finds: a lexeme or a comment where
there is one (`Rule.isLongest_of_lexeme`, `Rule.isLongest_of_skipped`), and nothing where no rule
matches (`Rule.not_matches_of_unexpected`).
-/
namespace Refactory

/-- What characters that belong together can be. -/
inductive Rule where
  /-- A certain keyword. -/
  | keyword (word : Keyword)
  /-- A word. -/
  | word
  /-- A run of digits. -/
  | digits
  /-- A string literal. -/
  | literal
  /-- A certain mark. -/
  | mark (sign : Mark)
  /-- A run of blanks. -/
  | blanks
  /-- A comment. -/
  | comment
deriving DecidableEq

/-- What can stand between the quotes of a string literal: characters other than quotes, backslashes
and line feeds, and backslashes with a character other than a line feed after each. -/
inductive IsQuotable : List Char → Prop
  /-- Nothing. -/
  | nil : IsQuotable []
  /-- A character that stands for itself. -/
  | plain {char : Char} {rest : List Char} (noQuote : char ≠ '"') (noEscape : char ≠ '\\')
      (noEnd : char ≠ '\n') (others : IsQuotable rest) : IsQuotable (char :: rest)
  /-- An escaped character. -/
  | escaped {char : Char} {rest : List Char} (noEnd : char ≠ '\n') (others : IsQuotable rest) :
      IsQuotable ('\\' :: char :: rest)

namespace Rule

/-- The characters that a rule matches. -/
def Matches : Rule → List Char → Prop
  | keyword reserved, characters => characters = reserved.spelling.toList
  | word, characters => ∃ first rest, characters = first :: rest ∧ isWordStart first = true ∧
      ∀ char ∈ rest, isWordRest char = true
  | digits, characters => characters ≠ [] ∧ ∀ char ∈ characters, isDigit char = true
  | literal, characters => ∃ contents, characters = '"' :: (contents ++ ['"']) ∧ IsQuotable contents
  | mark sign, characters => characters = sign.spelling.toList
  | blanks, characters => characters ≠ [] ∧ ∀ char ∈ characters, isBlank char = true
  | comment, characters => ∃ rest, characters = '/' :: '/' :: rest ∧ '\n' ∉ rest

/-- Blanks and comments are passed over. -/
def isSkipped : Rule → Bool
  | blanks | comment => true
  | _ => false

/-- The lexeme of characters that a rule matches; digits whose value is too large have none. -/
def lexeme? (characters : List Char) : Rule → Option Lexeme
  | keyword reserved => some (.keyword reserved)
  | word => some (.identifier (String.ofList characters))
  | digits =>
    let value := Lexeme.valueOfDigits characters
    if value ≤ Lexeme.largestInteger then some (.integer value) else none
  | literal => some (.text (String.ofList characters.tail.dropLast))
  | mark sign => some (.mark sign)
  | blanks | comment => none

/-- The characters at the front of a text that a rule matches, where no rule matches more of them,
and a keyword is no other word. -/
structure IsLongest (text : List Char) (rule : Rule) (used : List Char) : Prop where
  /-- The characters stand at the front. -/
  front : used <+: text
  /-- The rule matches them. -/
  matched : rule.Matches used
  /-- No rule matches more. -/
  longest : ∀ other more, more <+: text → Matches other more → more.length ≤ used.length
  /-- Keywords come before other words. -/
  reserved : ∀ other, Matches (.keyword other) used → rule = .keyword other

/-- The characters that something a rule matches can start with. -/
def Starts (first : Char) : Rule → Prop
  | keyword _ | word => isWordStart first = true
  | digits => isDigit first = true
  | literal => first = '"'
  | mark sign => sign.spelling.toList.head? = some first
  | blanks => isBlank first = true
  | comment => first = '/'

/-- A keyword is a word. -/
theorem matches_word_of_keyword {reserved : Keyword} {used : List Char}
    (matched : Matches (.keyword reserved) used) : Matches .word used := by
  obtain rfl : used = reserved.spelling.toList := matched
  cases reserved <;> exact ⟨_, _, rfl, rfl, List.all_eq_true.1 rfl⟩

/-- What a rule matches starts as the rule wants it. -/
theorem Matches.exists_first {rule : Rule} {used : List Char} (matched : rule.Matches used) :
    ∃ first rest, used = first :: rest ∧ rule.Starts first := by
  have nonempty (test : Char → Bool) (some : used ≠ [] ∧ ∀ char ∈ used, test char = true) :
      ∃ first rest, used = first :: rest ∧ test first = true := by
    obtain ⟨first, rest, rfl⟩ := List.exists_cons_of_ne_nil some.1
    exact ⟨first, rest, rfl, some.2 first (.head _)⟩
  cases rule with
  | keyword reserved =>
    obtain ⟨first, rest, spelled, starts, -⟩ := matches_word_of_keyword matched
    exact ⟨first, rest, spelled, starts⟩
  | word =>
    obtain ⟨first, rest, spelled, starts, -⟩ := matched
    exact ⟨first, rest, spelled, starts⟩
  | digits => exact nonempty isDigit matched
  | literal =>
    obtain ⟨contents, spelled, -⟩ := matched
    exact ⟨_, _, spelled, rfl⟩
  | mark sign =>
    obtain rfl : used = sign.spelling.toList := matched
    cases sign <;> exact ⟨_, _, rfl, rfl⟩
  | blanks => exact nonempty isBlank matched
  | comment =>
    obtain ⟨rest, spelled, -⟩ := matched
    exact ⟨_, _, spelled, rfl⟩

section

variable {first : Char} {rule : Rule}

/-- A character that starts a word is no blank, digit, quote or slash. -/
theorem isWordStart_apart (starts : isWordStart first = true) :
    isBlank first = false ∧ isDigit first = false ∧ first ≠ '"' ∧ first ≠ '/' := by
  have differs : first ≠ ' ' ∧ first ≠ '\t' ∧ first ≠ '\r' ∧ first ≠ '\n' ∧
      first ≠ '"' ∧ first ≠ '/' := by
    refine ⟨?_, ?_, ?_, ?_, ?_, ?_⟩ <;> rintro rfl <;> revert starts <;> decide
  have noDigit : isDigit first = false := by
    rw [Bool.eq_false_iff]
    intro digit
    simp only [isWordStart, isDigit, Bool.or_eq_true, Bool.and_eq_true, decide_eq_true_eq,
      beq_iff_eq, Char.le_def, UInt32.le_iff_toNat_le] at starts digit
    have high : first.val.toNat ≤ 57 := digit.2
    rcases starts with (⟨low, -⟩ | ⟨low, -⟩) | rfl
    · have above : 97 ≤ first.val.toNat := low
      omega
    · have above : 65 ≤ first.val.toNat := low
      omega
    · exact absurd high (by decide)
  exact ⟨by simp [isBlank, differs], noDigit, differs.2.2.2.2.1, differs.2.2.2.2.2⟩

/-- A digit is no blank, quote or slash. -/
theorem isDigit_apart (digit : isDigit first = true) :
    isBlank first = false ∧ first ≠ '"' ∧ first ≠ '/' := by
  have differs : first ≠ ' ' ∧ first ≠ '\t' ∧ first ≠ '\r' ∧ first ≠ '\n' ∧
      first ≠ '"' ∧ first ≠ '/' := by
    refine ⟨?_, ?_, ?_, ?_, ?_, ?_⟩ <;> rintro rfl <;> revert digit <;> decide
  exact ⟨by simp [isBlank, differs], differs.2.2.2.2.1, differs.2.2.2.2.2⟩

/-- The first character of a mark starts no word, digits, literal or blanks. -/
theorem mark_apart {sign : Mark} (starts : sign.spelling.toList.head? = some first) :
    isWordStart first = false ∧ isDigit first = false ∧ isBlank first = false ∧ first ≠ '"' := by
  cases sign <;> cases starts <;> decide

/-- Only words start as words do. -/
theorem Starts.of_isWordStart (starts : Starts first rule) (isStart : isWordStart first = true) :
    rule = .word ∨ ∃ reserved, rule = .keyword reserved := by
  obtain ⟨noBlank, noDigit, noQuote, noSlash⟩ := isWordStart_apart isStart
  cases rule with
  | keyword reserved => exact .inr ⟨reserved, rfl⟩
  | word => exact .inl rfl
  | digits => exact absurd starts (Bool.eq_false_iff.1 noDigit)
  | literal => exact absurd starts noQuote
  | mark sign => exact absurd isStart (Bool.eq_false_iff.1 (mark_apart starts).1)
  | blanks => exact absurd starts (Bool.eq_false_iff.1 noBlank)
  | comment => exact absurd starts noSlash

/-- Only digits start with digits. -/
theorem Starts.of_isDigit (starts : Starts first rule)
    (digit : isDigit first = true) : rule = .digits := by
  obtain ⟨noBlank, noQuote, noSlash⟩ := isDigit_apart digit
  have noWord : isWordStart first ≠ true := fun isStart =>
    Bool.eq_false_iff.1 (isWordStart_apart isStart).2.1 digit
  cases rule with
  | keyword reserved => exact absurd starts noWord
  | word => exact absurd starts noWord
  | digits => rfl
  | literal => exact absurd starts noQuote
  | mark sign => exact absurd digit (Bool.eq_false_iff.1 (mark_apart starts).2.1)
  | blanks => exact absurd starts (Bool.eq_false_iff.1 noBlank)
  | comment => exact absurd starts noSlash

/-- Only blanks start with blanks. -/
theorem Starts.of_isBlank (starts : Starts first rule)
    (blank : isBlank first = true) : rule = .blanks := by
  have noWord : isWordStart first ≠ true := fun isStart =>
    Bool.eq_false_iff.1 (isWordStart_apart isStart).1 blank
  cases rule with
  | keyword reserved => exact absurd starts noWord
  | word => exact absurd starts noWord
  | digits => exact absurd blank (Bool.eq_false_iff.1 (isDigit_apart starts).1)
  | literal =>
    obtain rfl : first = '"' := starts
    exact absurd blank (by decide)
  | mark sign => exact absurd blank (Bool.eq_false_iff.1 (mark_apart starts).2.2.1)
  | blanks => rfl
  | comment =>
    obtain rfl : first = '/' := starts
    exact absurd blank (by decide)

/-- Only literals start with a quote. -/
theorem Starts.of_quote (starts : Starts '"' rule) : rule = .literal := by
  cases rule with
  | keyword reserved => exact absurd (show isWordStart '"' = true from starts) (by decide)
  | word => exact absurd (show isWordStart '"' = true from starts) (by decide)
  | digits => exact absurd (show isDigit '"' = true from starts) (by decide)
  | literal => rfl
  | mark sign => exact absurd rfl (mark_apart starts).2.2.2
  | blanks => exact absurd (show isBlank '"' = true from starts) (by decide)
  | comment => exact absurd (show '"' = '/' from starts) (by decide)

/-- Only marks and comments start with another character. -/
theorem Starts.of_other (starts : Starts first rule) (noWord : isWordStart first = false)
    (noDigit : isDigit first = false) (noBlank : isBlank first = false) (noQuote : first ≠ '"') :
    rule = .comment ∨ ∃ sign, rule = .mark sign := by
  cases rule with
  | keyword reserved => exact absurd starts (Bool.eq_false_iff.1 noWord)
  | word => exact absurd starts (Bool.eq_false_iff.1 noWord)
  | digits => exact absurd starts (Bool.eq_false_iff.1 noDigit)
  | literal => exact absurd starts noQuote
  | mark sign => exact .inr ⟨sign, rfl⟩
  | blanks => exact absurd starts (Bool.eq_false_iff.1 noBlank)
  | comment => exact .inl rfl

end

section

variable {first : Char} {rest used : List Char} {rule : Rule}

/-- What a rule matches at the front of a text starts as the text does. -/
theorem Matches.starts (matched : rule.Matches used) (front : used <+: first :: rest) :
    ∃ more, used = first :: more ∧ more <+: rest ∧ rule.Starts first := by
  obtain ⟨char, more, rfl, starts⟩ := matched.exists_first
  obtain ⟨rfl, within⟩ := List.cons_prefix_cons.1 front
  exact ⟨more, rfl, within, starts⟩

/-- Where a keyword is matched, the text starts as words do. -/
theorem isWordStart_of_keyword {reserved : Keyword} (matched : Matches (.keyword reserved) used)
    (front : used <+: first :: rest) : isWordStart first = true := by
  obtain ⟨-, -, -, starts⟩ := matched.starts front
  exact starts

/-- A run of characters at the front of a text goes no further than the longest one. -/
theorem length_le_takeWhile {test : Char → Bool} (front : used <+: rest)
    (inside : ∀ char ∈ used, test char = true) : used.length ≤ (rest.takeWhile test).length := by
  obtain ⟨later, rfl⟩ := front
  rw [List.takeWhile_append_of_pos inside, List.length_append]
  exact Nat.le_add_right _ _

theorem of_mem_takeWhile {test : Char → Bool} {char : Char} (member : char ∈ rest.takeWhile test) :
    test char = true := List.all_eq_true.1 List.all_takeWhile char member

/-- The blanks at the front of a text. -/
theorem isLongest_blanks (blank : isBlank first = true) :
    IsLongest (first :: rest) .blanks ((first :: rest).takeWhile isBlank) := by
  have front := List.takeWhile_prefix (l := first :: rest) isBlank
  refine ⟨front, ⟨by simp [blank], fun char => of_mem_takeWhile⟩, fun other more within matched =>
    ?_, fun reserved matched => ?_⟩
  · obtain ⟨later, -, -, starts⟩ := matched.starts within
    obtain rfl := starts.of_isBlank blank
    exact length_le_takeWhile within matched.2
  · have starts : Starts first (.keyword reserved) := isWordStart_of_keyword matched front
    cases starts.of_isBlank blank

/-- A mark has one character or two. -/
theorem length_of_mark (sign : Mark) :
    sign.spelling.toList.length = 1 ∧ sign ∈ Mark.short ∨ sign.spelling.toList.length = 2 ∧
    sign ∈ Mark.long := by
  cases sign <;> decide

/-- The comment at the front of a text. -/
theorem isLongest_comment : IsLongest ('/' :: '/' :: rest) .comment
    ('/' :: ('/' :: rest).takeWhile (· != '\n')) := by
  have split : ('/' :: rest).takeWhile (· != '\n') = '/' :: rest.takeWhile (· != '\n') := by
    simp
  have front : '/' :: ('/' :: rest).takeWhile (· != '\n') <+: '/' :: '/' :: rest :=
    List.cons_prefix_cons.2 ⟨rfl, List.takeWhile_prefix _⟩
  refine ⟨front, ⟨_, congrArg _ split, fun member => ?_⟩, fun other more within matched => ?_,
    fun reserved matched => ?_⟩
  · exact absurd (of_mem_takeWhile member) (by decide)
  · obtain ⟨later, rfl, within, starts⟩ := matched.starts within
    rcases starts.of_other (by decide) (by decide) (by decide) (by decide) with rfl | ⟨sign, rfl⟩
    · obtain ⟨contents, same, noEnd⟩ := matched
      obtain rfl := (List.cons.inj same).2
      refine Nat.succ_le_succ (length_le_takeWhile within fun char member => ?_)
      rw [bne_iff_ne]
      rintro rfl
      rcases List.mem_cons.1 member with isSlash | member
      · exact absurd isSlash (by decide)
      · exact noEnd member
    · have isMark : '/' :: later = sign.spelling.toList := matched
      rw [isMark, split, List.length_cons, List.length_cons]
      rcases length_of_mark sign with ⟨length, -⟩ | ⟨length, -⟩ <;> omega
  · exact absurd (isWordStart_of_keyword matched front) (by decide)

/-- The word at the front of a text, and its lexeme. -/
theorem exists_isLongest_word (starts : isWordStart first = true) :
    ∃ rule, IsLongest (first :: rest) rule (first :: rest.takeWhile isWordRest) ∧
      rule.lexeme? (first :: rest.takeWhile isWordRest)
        = some (Lexeme.ofWord (String.ofList (first :: rest.takeWhile isWordRest))) := by
  have front : first :: rest.takeWhile isWordRest <+: first :: rest :=
    List.cons_prefix_cons.2 ⟨rfl, List.takeWhile_prefix _⟩
  have longest : ∀ other more, more <+: first :: rest → Matches other more →
      more.length ≤ (first :: rest.takeWhile isWordRest).length := by
    intro other more within matched
    obtain ⟨later, rfl, within, isStart⟩ := matched.starts within
    have isWord : Matches .word (first :: later) := by
      rcases isStart.of_isWordStart starts with rfl | ⟨reserved, rfl⟩
      · exact matched
      · exact matches_word_of_keyword matched
    obtain ⟨_, _, same, -, inside⟩ := isWord
    obtain ⟨rfl, rfl⟩ := List.cons.inj same
    exact Nat.succ_le_succ (length_le_takeWhile within inside)
  unfold Lexeme.ofWord
  split
  · rename_i reserved found
    have spelled : reserved.spelling = String.ofList (first :: rest.takeWhile isWordRest) := by
      simpa using List.find?_some found
    have matched : Matches (.keyword reserved) (first :: rest.takeWhile isWordRest) := by
      rw [Matches, spelled, String.toList_ofList]
    refine ⟨.keyword reserved, ⟨front, matched, longest, fun other matchedOther => ?_⟩, rfl⟩
    have same : reserved.spelling.toList = other.spelling.toList := matched.symm.trans matchedOther
    revert same
    cases reserved <;> cases other <;> decide
  · rename_i unknown
    refine ⟨.word, ⟨front, ⟨first, _, rfl, starts, fun char => of_mem_takeWhile⟩, longest,
      fun other matched => ?_⟩, rfl⟩
    have spelled : String.ofList (first :: rest.takeWhile isWordRest) = other.spelling := by
      rw [show first :: rest.takeWhile isWordRest = other.spelling.toList from matched,
        String.ofList_toList]
    rw [spelled] at unknown
    cases other <;> cases unknown

/-- The digits at the front of a text. -/
theorem isLongest_digits (digit : isDigit first = true) :
    IsLongest (first :: rest) .digits (first :: rest.takeWhile isDigit) := by
  have front : first :: rest.takeWhile isDigit <+: first :: rest :=
    List.cons_prefix_cons.2 ⟨rfl, List.takeWhile_prefix _⟩
  refine ⟨front, ⟨by simp, ?_⟩, fun other more within matched => ?_, fun reserved matched => ?_⟩
  · exact List.forall_mem_cons.2 ⟨digit, fun char => of_mem_takeWhile⟩
  · obtain ⟨later, rfl, within, starts⟩ := matched.starts within
    obtain rfl := starts.of_isDigit digit
    exact Nat.succ_le_succ (length_le_takeWhile within (List.forall_mem_cons.1 matched.2).2)
  · have starts : Starts first (.keyword reserved) := isWordStart_of_keyword matched front
    cases starts.of_isDigit digit

/-- What is taken as string contents can stand between quotes, and stands at the front. -/
theorem isQuotable_literalContents (rest : List Char) :
    IsQuotable (Lexeme.literalContents rest) ∧ Lexeme.literalContents rest <+: rest := by
  fun_induction Lexeme.literalContents rest with
  | case1 => exact ⟨.nil, List.prefix_refl _⟩
  | case2 => exact ⟨.nil, List.nil_prefix⟩
  | case3 => exact ⟨.nil, List.nil_prefix⟩
  | case4 escaped others notEnd ih =>
    exact ⟨.escaped (by simpa using notEnd) ih.1,
      List.cons_prefix_cons.2 ⟨rfl, List.cons_prefix_cons.2 ⟨rfl, ih.2⟩⟩⟩
  | case5 => exact ⟨.nil, List.nil_prefix⟩
  | case6 char others notEscape notEscaped ends ih =>
    have plain : char ≠ '\\' := by
      rintro rfl
      cases others with
      | nil => exact notEscape rfl rfl
      | cons escaped others => exact notEscaped escaped others rfl rfl
    simp only [Bool.or_eq_true, beq_iff_eq, not_or] at ends
    exact ⟨.plain ends.1 plain ends.2 ih.1, List.cons_prefix_cons.2 ⟨rfl, ih.2⟩⟩

/-- What can stand between quotes is taken as string contents as it is. -/
theorem literalContents_of_isQuotable {contents : List Char} (isQuotable : IsQuotable contents) :
    Lexeme.literalContents contents = contents := by
  induction isQuotable with
  | nil => rfl
  | plain noQuote noEscape noEnd others ih =>
    rw [Lexeme.literalContents]
    · simp [noQuote, noEnd, ih]
    · exact fun same _ => noEscape same
    · exact fun _ _ same _ => noEscape same
  | escaped noEnd others ih => simp [Lexeme.literalContents, noEnd, ih]

/-- Whatever is matched at a quote is a literal, whose contents end where string contents do. -/
theorem Matches.of_quote (matched : rule.Matches used) (front : used <+: '"' :: rest) :
    rule = .literal ∧ used = '"' :: (Lexeme.literalContents rest ++ ['"']) ∧
      ∃ later, rest.drop (Lexeme.literalContents rest).length = '"' :: later := by
  obtain ⟨-, -, -, starts⟩ := matched.starts front
  obtain rfl := starts.of_quote
  obtain ⟨contents, rfl, isQuotable⟩ := matched
  obtain ⟨later, spelled⟩ := (List.cons_prefix_cons.1 front).2
  rw [List.append_assoc, List.singleton_append] at spelled
  rw [← spelled, Token.literalContents_append later (literalContents_of_isQuotable isQuotable)]
  exact ⟨rfl, rfl, later, List.drop_left⟩

/-- The literal at a quote. -/
theorem isLongest_literal {later : List Char}
    (closed : rest.drop (Lexeme.literalContents rest).length = '"' :: later) :
    IsLongest ('"' :: rest) .literal ('"' :: (Lexeme.literalContents rest ++ ['"'])) := by
  obtain ⟨isQuotable, within⟩ := isQuotable_literalContents rest
  have spelled : Lexeme.literalContents rest ++ ['"'] ++ later = rest := by
    rw [List.append_assoc, List.singleton_append, ← closed]
    exact List.prefix_iff_eq_append.1 within
  refine ⟨List.cons_prefix_cons.2 ⟨rfl, later, spelled⟩, ⟨_, rfl, isQuotable⟩,
    fun other more within matched => ?_, fun reserved matched => ?_⟩
  · exact Nat.le_of_eq (congrArg List.length (matched.of_quote within).2.1)
  · cases (matched.of_quote (List.cons_prefix_cons.2 ⟨rfl, later, spelled⟩)).1

/-- The mark found first is the longest one. -/
theorem length_le_of_find? {sign other : Mark} {text : List Char}
    (found : (Mark.all.find? fun sign => sign.spelling.toList.isPrefixOf text) = some sign)
    (front : other.spelling.toList <+: text) :
    other.spelling.toList.length ≤ sign.spelling.toList.length := by
  rcases length_of_mark sign with ⟨short, -⟩ | ⟨long, -⟩
  · rcases length_of_mark other with ⟨length, -⟩ | ⟨-, isLong⟩
    · exact Nat.le_of_eq (length.trans short.symm)
    · -- A long mark stands at the front, so the search ends among the long ones.
      rw [Mark.all, List.find?_append] at found
      cases first : Mark.long.find? fun sign => sign.spelling.toList.isPrefixOf text with
      | none =>
        exact absurd (List.isPrefixOf_iff_prefix.2 front) (List.find?_eq_none.1 first other isLong)
      | some mark =>
        rw [first] at found
        obtain rfl := Option.some.inj found
        have isLong := List.mem_of_find?_eq_some first
        exact absurd short
          ((show ∀ mark ∈ Mark.long, mark.spelling.toList.length ≠ 1 by decide) mark isLong)
  · rw [long]
    rcases length_of_mark other with ⟨length, -⟩ | ⟨length, -⟩ <;> omega

/-- A comment starts with two slashes. -/
theorem Matches.slashes (matched : Matches .comment used) (front : used <+: first :: rest) :
    first = '/' ∧ rest.head? = some '/' := by
  obtain ⟨contents, rfl, -⟩ := matched
  obtain ⟨later, spelled⟩ := front
  cases spelled
  exact ⟨rfl, rfl⟩

end

end Rule

namespace Piece

/-- A piece that is no single blank is what the rules say of the front of the text: the longest
match, if it is not a number too large, and no match at all where the characters are unexpected. -/
def Obeys (text : List Char) (piece : Piece) : Prop :=
  match piece.reading with
  | .skipped => ∃ rule : Rule, rule.isSkipped = true ∧ rule.IsLongest text piece.characters
  | .lexeme lexeme => ∃ rule : Rule, rule.IsLongest text piece.characters ∧
      rule.lexeme? piece.characters = some lexeme
  | .tooLarge => Rule.IsLongest text .digits piece.characters ∧
      Lexeme.largestInteger < Lexeme.valueOfDigits piece.characters
  | .unexpected => piece.characters <+: text ∧ piece.characters ≠ [] ∧
      ∀ (rule : Rule) (used : List Char), used <+: text → ¬ rule.Matches used

variable {first : Char} {rest : List Char}

theorem obeys_number
    (digit : isDigit first = true) : Obeys (first :: rest) (number first rest) := by
  have longest : Rule.IsLongest (first :: rest) .digits _ := Rule.isLongest_digits digit
  unfold number Obeys
  by_cases fits : Lexeme.valueOfDigits (first :: rest.takeWhile isDigit) ≤ Lexeme.largestInteger
  · simp only [if_pos fits]
    exact ⟨.digits, longest, if_pos fits⟩
  · simp only [if_neg fits]
    exact ⟨longest, Nat.lt_of_not_le fits⟩

theorem obeys_literal : Obeys ('"' :: rest) (literal rest) := by
  unfold literal
  dsimp only
  split
  · rename_i later closed
    refine ⟨.literal, Rule.isLongest_literal closed, ?_⟩
    simp [Rule.lexeme?]
  · rename_i unclosed
    refine ⟨List.cons_prefix_cons.2 ⟨rfl, (Rule.isQuotable_literalContents rest).2⟩,
      List.cons_ne_nil _ _, fun rule used front matched => ?_⟩
    obtain ⟨-, -, later, closed⟩ := matched.of_quote front
    exact unclosed later closed

theorem obeys_mark (noWord : isWordStart first = false) (noDigit : isDigit first = false)
    (noBlank : isBlank first = false) (noQuote : first ≠ '"')
    (noComment : ¬ (first = '/' ∧ rest.head? = some '/')) :
    Obeys (first :: rest) (mark first rest) := by
  have isMark {rule : Rule} {used : List Char} (front : used <+: first :: rest)
      (matched : rule.Matches used) :
      ∃ sign, rule = .mark sign := by
    obtain ⟨-, -, -, starts⟩ := matched.starts front
    rcases starts.of_other noWord noDigit noBlank noQuote with rfl | isMark
    · exact absurd (matched.slashes front) noComment
    · exact isMark
  unfold mark
  split
  · rename_i sign found
    have starts := List.find?_some found
    have front := List.isPrefixOf_iff_prefix.1 starts
    refine ⟨.mark sign,
      ⟨front, rfl, fun other more within matched => ?_, fun reserved matched => ?_⟩, rfl⟩
    · obtain ⟨other, rfl⟩ := isMark within matched
      obtain rfl : more = other.spelling.toList := matched
      exact Rule.length_le_of_find? found within
    · obtain ⟨other, isKeyword⟩ := isMark front matched
      cases isKeyword
  · rename_i unknown
    refine ⟨List.cons_prefix_cons.2 ⟨rfl, List.nil_prefix⟩, List.cons_ne_nil _ _,
      fun rule used front matched => ?_⟩
    obtain ⟨sign, rfl⟩ := isMark front matched
    obtain rfl : used = sign.spelling.toList := matched
    have known : sign ∈ Mark.all := by cases sign <;> decide
    exact List.find?_eq_none.1 unknown sign known (List.isPrefixOf_iff_prefix.2 front)

/-- The piece at the front of a text that starts with no blank. -/
theorem obeys_atFront (noBlank : isBlank first = false) :
    Obeys (first :: rest) (atFront first rest) := by
  unfold atFront
  rw [if_neg (Bool.eq_false_iff.1 noBlank)]
  by_cases slashes : (first == '/' && rest.head? == some '/') = true
  · rw [if_pos slashes]
    simp only [Bool.and_eq_true, beq_iff_eq] at slashes
    obtain ⟨rfl, later⟩ := slashes
    obtain ⟨more, rfl⟩ := List.head?_eq_some_iff.1 later
    exact ⟨.comment, rfl, Rule.isLongest_comment⟩
  rw [if_neg slashes]
  split
  · rename_i starts
    exact Rule.exists_isLongest_word starts
  rename_i noWord
  split
  · rename_i digit
    exact obeys_number digit
  rename_i noDigit
  split
  · rename_i quote
    obtain rfl := beq_iff_eq.1 quote
    exact obeys_literal
  · rename_i noQuote
    simp only [Bool.not_eq_true] at noWord noDigit
    simp only [Bool.and_eq_true, beq_iff_eq] at slashes noQuote
    exact obeys_mark noWord noDigit noBlank noQuote slashes

end Piece

end Refactory
