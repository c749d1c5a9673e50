import Refactory.ParseError
import Refactory.Text.Slice

/-!
# Splitting a text into tokens

The front of a text is one piece (`Piece.atFront`): a blank, a comment, the longest lexeme that
can be read there, or characters that no lexeme starts with. The tokens of a text are the lexemes
of its pieces in order, each with the range of its characters, and one token at the end for the end
of the input. A text has no tokens when one of its pieces is refused.

The text of a name or of a string literal is not kept with its token, but found again by the span of
the token (`Lexeme.foundIn`). So where the range of a token does not fit into a span, the token has
another text than the one that was scanned.
-/
namespace Refactory

/-- Spaces, tabs and line ends separate tokens and mean nothing else. -/
def isBlank (char : Char) : Bool :=
  char == ' ' || char == '\t' || char == '\r' || char == '\n'

/-- The decimal digits. -/
def isDigit (char : Char) : Bool := '0' ≤ char && char ≤ '9'

/-- The characters that a word may start with. -/
def isWordStart (char : Char) : Bool :=
  'a' ≤ char && char ≤ 'z' || 'A' ≤ char && char ≤ 'Z' || char == '_'

/-- The characters that a word may go on with. -/
def isWordRest (char : Char) : Bool := isWordStart char || isDigit char

namespace Lexeme

/-- The largest value of an integer literal. -/
def largestInteger : Nat := 9223372036854775807

/-- The lexeme of a word: a keyword where the word spells one, else an identifier. -/
def ofWord (word : String) : Lexeme :=
  match Keyword.ofSpelling? word with
  | some reserved => .keyword reserved
  | none => .identifier word

/-- The text between the quotes of a literal, or all of it if it does not have both of them. -/
def unquoted : List Char → List Char
  | '"' :: rest => if rest.getLast? = some '"' then rest.dropLast else '"' :: rest
  | literal => literal

/-- The lexeme of a token whose text is found in a span of the source. -/
def foundIn (source : List Char) (span : Span) : Lexeme → Lexeme
  | .identifier _ => .identifier (String.ofList (span.slice source))
  | .text _ => .text (String.ofList (unquoted (span.slice source)))
  | lexeme => lexeme

/-- The value of a run of decimal digits. -/
def valueOfDigits (digits : List Char) : Nat := Nat.ofDigitChars 10 digits 0

/-- The longest run of string contents: a backslash with any character but a line feed after it,
and every other character but a quote, a backslash and a line feed. -/
def literalContents : List Char → List Char
  | [] => []
  | '\\' :: [] => []
  | '\\' :: escaped :: rest =>
    if escaped == '\n' then [] else '\\' :: escaped :: literalContents rest
  | char :: rest =>
    if char == '"' || char == '\n' then [] else char :: literalContents rest

end Lexeme

/-- What the characters at the front of a text are. -/
inductive Reading where
  /-- Nothing that counts: a blank or a comment. -/
  | skipped
  /-- A lexeme. -/
  | lexeme (lexeme : Lexeme)
  /-- An integer literal with too large a value. -/
  | tooLarge
  /-- No lexeme, nor the start of one. -/
  | unexpected
deriving DecidableEq, Inhabited

/-- The characters at the front of a text that belong together, and what they are. -/
structure Piece where
  /-- What the characters are. -/
  reading : Reading
  /-- The characters, of which there is at least one. -/
  characters : List Char

namespace Piece

/-- The piece of a comment, which runs up to the end of its line. -/
def comment (rest : List Char) : Piece :=
  ⟨.skipped, '/' :: rest.takeWhile (· != '\n')⟩

/-- The piece of a word. -/
def word (first : Char) (rest : List Char) : Piece :=
  let characters := first :: rest.takeWhile isWordRest
  ⟨.lexeme (.ofWord (String.ofList characters)), characters⟩

/-- The piece of a run of digits. -/
def number (first : Char) (rest : List Char) : Piece :=
  let characters := first :: rest.takeWhile isDigit
  let value := Lexeme.valueOfDigits characters
  ⟨if value ≤ Lexeme.largestInteger then .lexeme (.integer value) else .tooLarge, characters⟩

/-- The piece of a string literal, whose contents must be followed by a closing quote. -/
def literal (rest : List Char) : Piece :=
  let contents := Lexeme.literalContents rest
  match rest.drop contents.length with
  | '"' :: _ => ⟨.lexeme (.text (String.ofList contents)), '"' :: contents ++ ['"']⟩
  | _ => ⟨.unexpected, '"' :: contents⟩

/-- The piece of the longest mark, or of one character where no mark starts. -/
def mark (first : Char) (rest : List Char) : Piece :=
  match Mark.all.find? fun sign => sign.spelling.toList.isPrefixOf (first :: rest) with
  | some sign => ⟨.lexeme (.mark sign), sign.spelling.toList⟩
  | none => ⟨.unexpected, [first]⟩

/-- The piece at the front of a text that starts with `first`. -/
def atFront (first : Char) (rest : List Char) : Piece :=
  if isBlank first then ⟨.skipped, [first]⟩
  else if first == '/' && rest.head? == some '/' then comment rest
  else if isWordStart first then word first rest
  else if isDigit first then number first rest
  else if first == '"' then literal rest
  else mark first rest

/-- The number of bytes that the characters of a piece take. -/
def width (piece : Piece) : Nat :=
  piece.characters.foldl (fun total char => total + char.utf8Size) 0

end Piece

namespace Token

/-- The tokens of a text that starts at the byte `offset` and whose first `passed` characters
belong to a piece already read, each with the range of bytes that it takes. -/
def scanFrom (offset passed : Nat) : List Char → Except ParseError (List Token)
  | [] => .ok [⟨.endOfInput, ⟨offset, offset⟩⟩]
  | char :: rest =>
    match passed with
    | passed + 1 => scanFrom (offset + char.utf8Size) passed rest
    | 0 =>
      let piece := Piece.atFront char rest
      let span : Span := ⟨offset, offset + piece.width⟩
      let later := piece.characters.length - 1
      match piece.reading with
      | .skipped => scanFrom (offset + char.utf8Size) later rest
      | .lexeme lexeme => do
        let tokens ← scanFrom (offset + char.utf8Size) later rest
        return ⟨lexeme, span⟩ :: tokens
      | .tooLarge => .error (.tooLarge span)
      | .unexpected => .error (.unexpected (String.ofList piece.characters) span)

/-- A token with a span for its range, and with the text that is found there. -/
def located (source : List Char) (token : Token) : Token :=
  let span := Span.ofRange token.span.start token.span.stop
  ⟨token.lexeme.foundIn source span, span⟩

/-- The tokens of a source text. -/
def scan (source : String) : Except ParseError (List Token) :=
  match scanFrom 0 0 source.toList with
  | .ok tokens => .ok (tokens.map (located source.toList))
  | .error error => .error error.located

end Token

end Refactory
