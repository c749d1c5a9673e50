import Refactory.Span
import Refactory.Text.Blank

/-!
# Reading spans

A span is written as its two offsets with two dots between them; blanks around an offset and a plus
sign before it do not matter. An end before the start is refused, and so is an offset that does not
fit 64 bits. Offsets beyond any text are read as the largest offset that a span can have.
-/
namespace Refactory

namespace Span

/-- The largest offset that can be written. -/
def largestWritten : Nat := 18446744073709551615

/-- The number that decimal digits write, of which there must be one. -/
def readDigits? (digits : List Char) : Option Nat :=
  if !digits.isEmpty && digits.all Char.isDigit then
    some (Nat.ofDigitChars 10 digits 0) |>.filter (· ≤ largestWritten)
  else
    none

/-- The offset that is written, maybe between blanks and with a plus sign. -/
def readOffset? (characters : List Char) : Option Nat :=
  match Text.trimBlanks characters with
  | '+' :: digits => readDigits? digits
  | digits => readDigits? digits

/-- What comes before the first two dots and what comes after them. -/
def splitAtDots? : List Char → Option (List Char × List Char)
  | '.' :: '.' :: rest => some ([], rest)
  | character :: rest =>
    (splitAtDots? rest).map fun (before, after) => (character :: before, after)
  | [] => none

/-- The span that a text writes. -/
def read? (text : String) : Option Span := do
  let (first, last) ← splitAtDots? text.toList
  let start ← readOffset? first
  let stop ← readOffset? last
  if start ≤ stop then some (ofRange start stop) else none

end Span

end Refactory
