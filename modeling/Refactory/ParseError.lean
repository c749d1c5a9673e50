import Refactory.Token

/-!
# Reading errors

The causes for which a text is no program, each with the place where reading gave up. A text is
refused either by its characters (`unexpected`, `tooLarge`) or by the order of its tokens
(`expected`).
-/
namespace Refactory

/-- What would have let reading go on. -/
inductive Expectation where
  /-- Any expression. -/
  | expression
  /-- Any name. -/
  | identifier
  /-- The keyword. -/
  | keyword (word : Keyword)
  /-- The mark. -/
  | mark (delimiter : Mark)
deriving DecidableEq, Inhabited

/-- How error messages speak of an expectation. -/
def Expectation.description : Expectation → String
  | expression => "expression"
  | identifier => "identifier"
  | keyword word => (Lexeme.keyword word).description
  | mark delimiter => (Lexeme.mark delimiter).description

/-- Why a text is no program. -/
inductive ParseError where
  /-- No token starts with these characters. -/
  | unexpected (characters : String) (span : Span)
  /-- Another lexeme stands where one of a certain sort is needed. -/
  | expected (wanted : Expectation) (found : Lexeme) (span : Span)
  /-- An integer literal has a value above `Lexeme.largestInteger`. -/
  | tooLarge (span : Span)
deriving DecidableEq, Inhabited

namespace ParseError

/-- Where reading gave up. -/
def span : ParseError → Span
  | unexpected _ span => span
  | expected _ _ span => span
  | tooLarge span => span

/-- The error with a span for the range of bytes where reading gave up. -/
def located : ParseError → ParseError
  | unexpected characters span => .unexpected characters (.ofRange span.start span.stop)
  | expected wanted found span => .expected wanted found (.ofRange span.start span.stop)
  | tooLarge span => .tooLarge (.ofRange span.start span.stop)

/-- The text shown for the error. -/
def message : ParseError → String
  | unexpected characters span =>
    "unexpected character `" ++ characters ++ "` at " ++ span.text
  | expected wanted found span =>
    "expected " ++ wanted.description ++ ", found " ++ found.description ++ " at " ++ span.text
  | tooLarge span => "integer literal out of range at " ++ span.text

end ParseError

end Refactory
