import Refactory.Span

/-!
# Parts of a text

A part of a text is given by the offsets of its first byte and of the byte after it. Characters take
one to four bytes, so an offset can lie inside a character, and no part starts or ends there.
-/
namespace Refactory

namespace Text

/-- A text without its first bytes, if the text is long enough and a character ends there. -/
def dropBytes? (count : Nat) : List Char → Option (List Char)
  | [] => if count = 0 then some [] else none
  | char :: rest =>
    if count = 0 then some (char :: rest)
    else if char.utf8Size ≤ count then dropBytes? (count - char.utf8Size) rest
    else none

/-- The first bytes of a text, if the text is long enough and a character ends there. -/
def takeBytes? (count : Nat) : List Char → Option (List Char)
  | [] => if count = 0 then some [] else none
  | char :: rest =>
    if count = 0 then some []
    else if char.utf8Size ≤ count then (takeBytes? (count - char.utf8Size) rest).map (char :: ·)
    else none

end Text

/-- The characters of a text in a span, or no characters where the text has no such part. -/
def Span.slice (span : Span) (text : List Char) : List Char :=
  ((Text.dropBytes? span.start text).bind (Text.takeBytes? span.length)).getD []

end Refactory
