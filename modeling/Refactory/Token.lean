import Refactory.Span

/-!
# Tokens

A token is a lexeme with its span. Lexemes are keywords, marks, identifiers, literals and the end
of the input; identifiers and string literals carry their text. Keywords and marks are spelled in
one way each (`Keyword.spelling`, `Mark.spelling`).
-/
namespace Refactory

/-- The words that are no identifiers. -/
inductive Keyword where
  /-- Opens a counted loop. -/
  | for
  /-- Opens a loop over elements. -/
  | forEach
  /-- Stands before a collection or a read-only argument. -/
  | in
  /-- Opens a conditional statement. -/
  | if
  /-- Opens an else branch. -/
  | else
  /-- Opens a loop with a condition. -/
  | while
  /-- Opens a return. -/
  | return
  /-- The true value. -/
  | true
  /-- The false value. -/
  | false
  /-- The null literal. -/
  | null
  /-- Stands before an argument passed by reference. -/
  | ref
  /-- Stands before an argument to be written. -/
  | out
deriving DecidableEq, Inhabited

namespace Keyword

/-- Every keyword once. -/
def all : List Keyword :=
  [.for, .forEach, .in, .if, .else, .while, .return, .true, .false, .null, .ref, .out]

/-- How the keyword is written. -/
def spelling : Keyword → String
  | .for => "for"
  | .forEach => "foreach"
  | .in => "in"
  | .if => "if"
  | .else => "else"
  | .while => "while"
  | .return => "return"
  | .true => "true"
  | .false => "false"
  | .null => "null"
  | .ref => "ref"
  | .out => "out"

/-- The keyword that a word spells. -/
def ofSpelling? (word : String) : Option Keyword := all.find? (·.spelling == word)

end Keyword

/-- The marks of the language: delimiters and operators. -/
inductive Mark where
  /-- Opens a parenthesis. -/
  | lparen
  /-- Closes a parenthesis. -/
  | rparen
  /-- Opens a block. -/
  | lbrace
  /-- Closes a block. -/
  | rbrace
  /-- Opens an element access. -/
  | lbracket
  /-- Closes an element access. -/
  | rbracket
  /-- Separates the items of a list. -/
  | comma
  /-- Ends a statement. -/
  | semi
  /-- Stands before a member name. -/
  | dot
  /-- Stands before the member name of a conditional access. -/
  | questionDot
  /-- Stands before the body of a lambda. -/
  | arrow
  /-- Equality. -/
  | eqEq
  /-- Inequality. -/
  | notEq
  /-- At most. -/
  | ltEq
  /-- At least. -/
  | gtEq
  /-- Less than; opens type arguments. -/
  | lt
  /-- Greater than; closes type arguments. -/
  | gt
  /-- Conjunction. -/
  | andAnd
  /-- Disjunction. -/
  | orOr
  /-- Null coalescing. -/
  | questionQuestion
  /-- Logical negation. -/
  | bang
  /-- Assignment. -/
  | eq
  /-- Assignment of the sum. -/
  | plusEq
  /-- Assignment of the difference. -/
  | minusEq
  /-- Assignment of the product. -/
  | starEq
  /-- Assignment of the quotient. -/
  | slashEq
  /-- Increment. -/
  | plusPlus
  /-- Decrement. -/
  | minusMinus
  /-- Addition. -/
  | plus
  /-- Subtraction and arithmetic negation. -/
  | minus
  /-- Multiplication. -/
  | star
  /-- Division. -/
  | slash
  /-- Remainder. -/
  | percent
deriving DecidableEq, Inhabited

namespace Mark

/-- How the mark is written. -/
def spelling : Mark → String
  | lparen => "("
  | rparen => ")"
  | lbrace => "\x7b"
  | rbrace => "\x7d"
  | lbracket => "["
  | rbracket => "]"
  | comma => ","
  | semi => ";"
  | dot => "."
  | questionDot => "?."
  | arrow => "=>"
  | eqEq => "=="
  | notEq => "!="
  | ltEq => "<="
  | gtEq => ">="
  | lt => "<"
  | gt => ">"
  | andAnd => "&&"
  | orOr => "||"
  | questionQuestion => "??"
  | bang => "!"
  | eq => "="
  | plusEq => "+="
  | minusEq => "-="
  | starEq => "*="
  | slashEq => "/="
  | plusPlus => "++"
  | minusMinus => "--"
  | plus => "+"
  | minus => "-"
  | star => "*"
  | slash => "/"
  | percent => "%"

/-- The marks of two characters. -/
def long : List Mark :=
  [questionDot, arrow, eqEq, notEq, ltEq, gtEq, andAnd, orOr, questionQuestion, plusEq, minusEq,
    starEq, slashEq, plusPlus, minusMinus]

/-- The marks of one character. -/
def short : List Mark :=
  [lparen, rparen, lbrace, rbrace, lbracket, rbracket, comma, semi, dot, lt, gt, bang, eq, plus,
    minus, star, slash, percent]

/-- Every mark once, the longer ones first. -/
def all : List Mark := long ++ short

end Mark

/-- What a token is, apart from its place. -/
inductive Lexeme where
  /-- A keyword. -/
  | keyword (word : Keyword)
  /-- A name. -/
  | identifier (name : String)
  /-- An integer literal. -/
  | integer (value : Nat)
  /-- A string literal with the text between its quotes. -/
  | text (contents : String)
  /-- A delimiter or an operator. -/
  | mark (sign : Mark)
  /-- The end of the input. -/
  | endOfInput
deriving DecidableEq, Inhabited

namespace Lexeme

/-- How error messages speak of a lexeme; most of them are only called a token. -/
def description : Lexeme → String
  | identifier _ => "identifier"
  | integer _ => "integer literal"
  | text _ => "string literal"
  | endOfInput => "end of input"
  | keyword .in => "`in`"
  | mark .lparen => "`(`"
  | mark .rparen => "`)`"
  | mark .lbrace => "`\x7b`"
  | mark .rbrace => "`\x7d`"
  | mark .lbracket => "`[`"
  | mark .rbracket => "`]`"
  | mark .comma => "`,`"
  | mark .semi => "`;`"
  | mark .arrow => "`=>`"
  | mark .gt => "`>`"
  | _ => "token"

/-- Identifiers are the lexemes that name something. -/
def isIdentifier : Lexeme → Bool
  | identifier _ => true
  | _ => false

end Lexeme

/-- A lexeme and where it stands. -/
structure Token where
  /-- What the token is. -/
  lexeme : Lexeme
  /-- Where the token stands. -/
  span : Span
deriving DecidableEq, Inhabited

end Refactory
