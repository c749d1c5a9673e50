import Refactory.Term

/-!
# Layout

The written form of a term: four spaces for each level of nesting, an opening brace on the line of
its header, one statement on a line, and one space on either side of a binary or assignment
operator. Parentheses come from parenthesis nodes alone, so the layout of a term shows exactly its
shape.

`Layout.text` is the written form from the current column on. A statement standing alone is a line
of its own (`Layout.line`): its indentation, its text, and what closes it (`Layout.closing`). A
child that is absent where one is needed is written as the null literal.
-/
namespace Refactory

namespace Layout

variable {α : Type}

/-- The number of spaces for a level of nesting. -/
def indentWidth : Nat := 4

/-- The spaces in front of a line. -/
def indent (level : Nat) : String := String.ofList (List.replicate (indentWidth * level) ' ')

/-- What ends the line of a statement after its text: a declaration has no semicolon of its own,
and an expression in the place of a statement only ends its line. -/
def closing (kind : Term.Form α) : String :=
  match kind with
  | .localDecl _ _ => ";\n"
  | kind => if kind.isStatement || kind.isMethod then "" else "\n"

/-- What stands in front of an item of a list. -/
def separator (first : Bool) : String := if first then "" else ", "

/-- A blank line keeps a method apart from its neighbours; a first member has none before it. -/
def gap (wasMethod : Option Bool) (isMethod : Bool) : String :=
  match wasMethod with
  | none => ""
  | some wasMethod => if wasMethod || isMethod then "\n" else ""

/-- A block stays on the line of the header before it. -/
def isBlock : Option (Term α) → Bool
  | some (.node _ (.block _)) => true
  | _ => false

/-- A conditional statement in an else branch stays on the line of the else. -/
def isConditional : Term α → Bool
  | .node _ (.ifStmt _ _ _) => true
  | _ => false

/-- Lines between braces. -/
def braces (level : Nat) (lines : String) : String :=
  "\x7b\n" ++ lines ++ indent level ++ "\x7d"

mutual

/-- The written form of a term at a level of nesting, from the current column on. -/
def text (level : Nat) : Term α → String
  | .node _ (.unit members) => unitMembers level none members
  | .node _ (.method result name params body) =>
    child level result ++ " " ++ name ++ "(" ++ items level true params ++ ")" ++
      embedded level false body
  | .node _ (.param type name) => typed level type ++ name
  | .node _ (.typeRef name arguments rank) =>
    name ++ (if arguments.isEmpty then "" else "<" ++ items level true arguments ++ ">") ++
      String.join (List.replicate rank "[]")
  | .node _ (.block statements) => braces level (lines (level + 1) statements) ++ "\n"
  | .node _ (.localDecl type declarators) =>
    child level type ++ " " ++ items level true declarators
  | .node _ (.declarator name value) => name ++ initial level value
  | .node _ (.exprStmt expression) => child level expression ++ ";\n"
  | .node _ (.returnStmt value) => "return" ++ spaced level value ++ ";\n"
  | .node _ (.ifStmt condition thenBranch elseBranch) =>
    "if (" ++ child level condition ++ ")" ++ branch level thenBranch ++
      (if elseBranch.isNone then (if isBlock thenBranch then "\n" else "")
        else (if isBlock thenBranch then " else" else indent level ++ "else") ++
          embedded level true elseBranch)
  | .node _ (.whileLoop condition body) =>
    "while (" ++ child level condition ++ ")" ++ embedded level false body
  | .node _ (.forLoop declaration initializers condition incrementors body) =>
    "for (" ++ opening level (items level true initializers) declaration ++ ";" ++
      spaced level condition ++ ";" ++
      (if incrementors.isEmpty then "" else " " ++ items level true incrementors) ++ ")" ++
      embedded level false body
  | .node _ (.forEach type name collection body) =>
    "foreach (" ++ child level type ++ " " ++ name ++ " in " ++ child level collection ++ ")" ++
      embedded level false body
  | .node _ (.int value) => toString value
  | .node _ (.str contents) => "\"" ++ contents ++ "\""
  | .node _ (.bool value) => if value then "true" else "false"
  | .node _ .null => "null"
  | .node _ (.ident name) => name
  | .node _ (.member receiver name conditional) =>
    child level receiver ++ (if conditional then "?." else ".") ++ name
  | .node _ (.invoke callee arguments) =>
    child level callee ++ "(" ++ items level true arguments ++ ")"
  | .node _ (.argument modifier value) =>
    (match modifier.keyword? with
      | none => ""
      | some keyword => keyword ++ " ") ++ child level value
  | .node _ (.index receiver arguments) =>
    child level receiver ++ "[" ++ items level true arguments ++ "]"
  | .node _ (.lambda params body parenthesized) =>
    (if parenthesized || params.length != 1 then "(" ++ items level true params ++ ")"
      else items level true params) ++ " => " ++ lambdaBody level body
  | .node _ (.binary op left right) =>
    child level left ++ " " ++ op.symbol ++ " " ++ child level right
  | .node _ (.unary op operand) =>
    if op.isPostfix then child level operand ++ op.symbol else op.symbol ++ child level operand
  | .node _ (.assign op target value) =>
    child level target ++ " " ++ op.symbol ++ " " ++ child level value
  | .node _ (.paren inner) => "(" ++ child level inner ++ ")"

/-- The written form of a child that is needed. -/
def child (level : Nat) : Option (Term α) → String
  | none => "null"
  | some term => text level term

/-- An optional child with a space before it. -/
def spaced (level : Nat) : Option (Term α) → String
  | none => ""
  | some term => " " ++ text level term

/-- The initial value of a variable, where it has one. -/
def initial (level : Nat) : Option (Term α) → String
  | none => ""
  | some term => " = " ++ text level term

/-- The type of a parameter, where it has one. -/
def typed (level : Nat) : Option (Term α) → String
  | none => ""
  | some term => text level term ++ " "

/-- The items of a list, with commas between them. -/
def items (level : Nat) (first : Bool) : List (Term α) → String
  | [] => ""
  | term :: terms => separator first ++ text level term ++ items level false terms

/-- What opens the header of a counted loop: its declaration, or else its initializers. -/
def opening (level : Nat) (initializers : String) : Option (Term α) → String
  | some (.node _ (.localDecl type declarators)) =>
    child level type ++ " " ++ items level true declarators
  | _ => initializers

/-- The body of a lambda: a block does not end its line. -/
def lambdaBody (level : Nat) : Option (Term α) → String
  | none => "null"
  | some (.node _ (.block statements)) => braces level (lines (level + 1) statements)
  | some term => text level term

/-- A branch after its header: a block on the same line, which it does not end, or a line one
level deeper. -/
def branch (level : Nat) : Option (Term α) → String
  | none => "\n" ++ indent (level + 1) ++ "null\n"
  | some (.node _ (.block statements)) => " " ++ braces level (lines (level + 1) statements)
  | some term => "\n" ++ indent (level + 1) ++ text (level + 1) term ++ closing term.kind

/-- A body after its header, up to the end of its last line; where a `chained` conditional is the
body it stays on the line of the header. -/
def embedded (level : Nat) (chained : Bool) : Option (Term α) → String
  | none => "\n" ++ indent (level + 1) ++ "null\n"
  | some (.node _ (.block statements)) => " " ++ braces level (lines (level + 1) statements) ++ "\n"
  | some term =>
    if chained && isConditional term then " " ++ text level term
    else "\n" ++ indent (level + 1) ++ text (level + 1) term ++ closing term.kind

/-- Statements, each on a line of its own. -/
def lines (level : Nat) : List (Term α) → String
  | [] => ""
  | term :: terms => indent level ++ text level term ++ closing term.kind ++ lines level terms

/-- The members of a unit, each on a line of its own, after a member that was a method or not. -/
def unitMembers (level : Nat) (wasMethod : Option Bool) : List (Term α) → String
  | [] => ""
  | term :: terms =>
    gap wasMethod term.kind.isMethod ++ indent level ++ text level term ++ closing term.kind ++
      unitMembers level (some term.kind.isMethod) terms

end

/-- A statement or method as a line of its own. -/
def line (level : Nat) (term : Term α) : String :=
  indent level ++ text level term ++ closing term.kind

end Layout

namespace Term

variable {α : Type}

/-- The written form of a term: a unit, method or statement as lines, and all else inline. -/
def written (term : Term α) : String :=
  if term.kind.isStatement || term.kind.isMethod then Layout.line 0 term else Layout.text 0 term

/-- The written form of a term in the place of an expression, which a unit or method has not. -/
def writtenInline? (term : Term α) : Option String :=
  match term.kind with
  | .unit _ | .method _ _ _ _ => none
  | _ => some (Layout.text 0 term)

/-- The written form of a term in the place of a statement, which a unit or method has not. -/
def writtenStatement? (term : Term α) : Option String :=
  match term.kind with
  | .unit _ | .method _ _ _ _ => none
  | _ => some (Layout.line 0 term)

/-- The written form of a term in the place of a member, which a unit has not. -/
def writtenMember? (term : Term α) : Option String :=
  match term.kind with
  | .unit _ => none
  | _ => some (Layout.line 0 term)

end Term

end Refactory
