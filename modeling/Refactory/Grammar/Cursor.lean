import Refactory.Token.Lexer

/-!
# Reading tokens one after another

A cursor holds the tokens that are still to be read, the last of which is the end of the input,
and the span of the token read last. A `Parser` is a step that moves the cursor or refuses the
program; the end of the input is never passed. The `bound` of a recursive step limits the depth of
its recursion: a step whose bound runs out is `exhausted`, which is no verdict on the program.

Three tests look ahead without moving the cursor: whether a local declaration, a method or a
lambda starts here. They rest on `pastType?`, which finds where a type ends.
-/
namespace Refactory

/-- A place between the tokens of a program. -/
structure Cursor where
  /-- The tokens that are still to be read. -/
  tokens : List Token
  /-- The span of the token read last. -/
  previous : Span

/-- Why a parser gave no result. -/
inductive Failure where
  /-- The program is refused. -/
  | refused (error : ParseError)
  /-- The bound on the depth of recursion was too small for the program. -/
  | exhausted
deriving DecidableEq

/-- The text shown for the failure. -/
def Failure.message : Failure → String
  | refused error => error.message
  | exhausted => "the program is nested too deeply"

/-- A step over the tokens of a program. -/
abbrev Parser (α : Type) := StateT Cursor (Except Failure) α

/-- The lexeme of the first token. -/
def Token.first : List Token → Lexeme
  | [] => .endOfInput
  | token :: _ => token.lexeme

namespace Cursor

/-- The lexeme in front of the cursor. -/
def lexeme (cursor : Cursor) : Lexeme := Token.first cursor.tokens

/-- The span of the token in front of the cursor. -/
def span (cursor : Cursor) : Span :=
  match cursor.tokens with
  | [] => cursor.previous
  | token :: _ => token.span

/-- The cursor after the token in front of it; the end of the input is not passed. -/
def next (cursor : Cursor) : Cursor :=
  match cursor.tokens with
  | [] => cursor
  | token :: rest => if token.lexeme = .endOfInput then cursor else ⟨rest, token.span⟩

end Cursor

namespace Token

/-- The number of array suffixes in front. -/
def rank : List Token → Nat
  | ⟨.mark .lbracket, _⟩ :: ⟨.mark .rbracket, _⟩ :: rest => rank rest + 1
  | _ => 0

/-- The tokens after the array suffixes in front, each of which is two tokens long. -/
def pastRank (tokens : List Token) : List Token := tokens.drop (2 * rank tokens)

mutual

/-- The tokens after the type in front: a name, type arguments where there are any, and any number
of array suffixes. -/
def pastType? (bound : Nat) (tokens : List Token) : Option (List Token) :=
  match bound with
  | 0 => none
  | bound + 1 =>
    match tokens with
    | ⟨.identifier _, _⟩ :: ⟨.mark .lt, _⟩ :: rest =>
      (pastTypeArguments? bound rest).map pastRank
    | ⟨.identifier _, _⟩ :: rest => some (pastRank rest)
    | _ => none

/-- The tokens after the type arguments in front and the mark that closes them. -/
def pastTypeArguments? (bound : Nat) (tokens : List Token) : Option (List Token) :=
  match bound with
  | 0 => none
  | bound + 1 =>
    match pastType? bound tokens with
    | some (⟨.mark .comma, _⟩ :: rest) => pastTypeArguments? bound rest
    | some (⟨.mark .gt, _⟩ :: rest) => some rest
    | _ => none

end

/-- A bound that suffices to find the end of a type. -/
def typeBound (tokens : List Token) : Nat := 2 * (tokens.length + 1)

/-- A local declaration starts with a type, a name and what may follow a declared name. -/
def atLocalDecl (tokens : List Token) : Bool :=
  match pastType? (typeBound tokens) tokens with
  | some (⟨.identifier _, _⟩ :: rest) =>
    match Token.first rest with
    | .mark .eq | .mark .semi | .mark .comma => true
    | _ => false
  | _ => false

/-- A method starts with a type, a name and an opening parenthesis. -/
def atMethod (tokens : List Token) : Bool :=
  match pastType? (typeBound tokens) tokens with
  | some (⟨.identifier _, _⟩ :: ⟨.mark .lparen, _⟩ :: _) => true
  | _ => false

/-- Names with commas between them, followed by a closing parenthesis and an arrow. -/
def closesLambdaParams : List Token → Bool
  | ⟨.identifier _, _⟩ :: ⟨.mark .comma, _⟩ :: rest => closesLambdaParams rest
  | ⟨.identifier _, _⟩ :: ⟨.mark .rparen, _⟩ :: ⟨.mark .arrow, _⟩ :: _ => true
  | _ => false

/-- A lambda starts with one name or a list of names in parentheses, followed by an arrow. -/
def atLambda : List Token → Bool
  | ⟨.identifier _, _⟩ :: ⟨.mark .arrow, _⟩ :: _ => true
  | ⟨.mark .lparen, _⟩ :: ⟨.mark .rparen, _⟩ :: ⟨.mark .arrow, _⟩ :: _ => true
  | ⟨.mark .lparen, _⟩ :: rest => closesLambdaParams rest
  | _ => false

end Token

namespace Parser

/-- The lexeme in front of the cursor. -/
def lexeme : Parser Lexeme := return (← get).lexeme

/-- The span of the token in front of the cursor. -/
def here : Parser Span := return (← get).span

/-- The span of the token read last. -/
def previous : Parser Span := return (← get).previous

/-- The tokens in front of the cursor. -/
def tokens : Parser (List Token) := return (← get).tokens

/-- Moves past the token in front of the cursor. -/
def advance : Parser Unit := modify Cursor.next

/-- Moves past a number of tokens. -/
def skip : Nat → Parser Unit
  | 0 => return
  | count + 1 => do
    advance
    skip count

/-- Refuses the program because something else is wanted here. -/
def refuse {α : Type} (wanted : Expectation) : Parser α := do
  throw (.refused (.expected wanted (← lexeme) (← here)))

/-- Gives up because the bound on the depth of recursion was too small. -/
def exhausted {α : Type} : Parser α := throw .exhausted

/-- Whether a mark is in front of the cursor. -/
def atMark (mark : Mark) : Parser Bool := return (← lexeme) == .mark mark

/-- Moves past a mark if it is in front of the cursor, and tells whether it was. -/
def eat (mark : Mark) : Parser Bool := do
  if ← atMark mark then
    advance
    return true
  else
    return false

/-- Moves past a mark that must be in front of the cursor. -/
def expect (mark : Mark) : Parser Unit := do
  unless ← eat mark do refuse (.mark mark)

/-- Moves past a keyword that must be in front of the cursor. -/
def expectKeyword (word : Keyword) : Parser Unit := do
  if (← lexeme) == .keyword word then advance else refuse (.keyword word)

/-- Moves past an identifier that must be in front of the cursor, giving its name. -/
def name : Parser String := do
  match ← lexeme with
  | .identifier name =>
    advance
    return name
  | _ => refuse .identifier

end Parser

end Refactory
