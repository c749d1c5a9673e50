import Refactory.Kind

/-!
# Terms

A term is a program as a value: a node with a note and a kind whose children are terms. The note
is whatever the maker of the term knows of the node, such as its span or its place in a tree; the
shape of a term is what is left when the notes are forgotten. An optional child that is absent is
`none`.
-/
namespace Refactory

/-- A node with its note, its kind and, inside the kind, the terms below it. -/
inductive Term (α : Type) where
  /-- The node of a note and a kind. -/
  | node (note : α) (kind : Kind (Option (Term α)) (List (Term α)))

namespace Term

variable {α β : Type}

/-- The kind of a node with the terms below it. -/
abbrev Form (α : Type) := Kind (Option (Term α)) (List (Term α))

/-- The note at the root of a term. -/
def note : Term α → α
  | node note _ => note

/-- The kind at the root of a term. -/
def kind : Term α → Form α
  | node _ kind => kind

instance [Inhabited α] : Inhabited (Term α) := ⟨node default .null⟩

mutual

/-- The term with `f` of each note in place of the note. -/
def map (f : α → β) : Term α → Term β
  | node note kind => node (f note) (mapForm f kind)

/-- The kind with the terms below it mapped. -/
def mapForm (f : α → β) : Form α → Form β
  | .unit members => .unit (mapAll f members)
  | .method result name params body =>
    .method (mapSome f result) name (mapAll f params) (mapSome f body)
  | .param type name => .param (mapSome f type) name
  | .typeRef name arguments rank => .typeRef name (mapAll f arguments) rank
  | .block statements => .block (mapAll f statements)
  | .localDecl type declarators => .localDecl (mapSome f type) (mapAll f declarators)
  | .declarator name value => .declarator name (mapSome f value)
  | .exprStmt expression => .exprStmt (mapSome f expression)
  | .returnStmt value => .returnStmt (mapSome f value)
  | .ifStmt condition thenBranch elseBranch =>
    .ifStmt (mapSome f condition) (mapSome f thenBranch) (mapSome f elseBranch)
  | .whileLoop condition body => .whileLoop (mapSome f condition) (mapSome f body)
  | .forLoop declaration initializers condition incrementors body =>
    .forLoop (mapSome f declaration) (mapAll f initializers) (mapSome f condition)
      (mapAll f incrementors) (mapSome f body)
  | .forEach type name collection body =>
    .forEach (mapSome f type) name (mapSome f collection) (mapSome f body)
  | .int value => .int value
  | .str contents => .str contents
  | .bool value => .bool value
  | .null => .null
  | .ident name => .ident name
  | .member receiver name conditional => .member (mapSome f receiver) name conditional
  | .invoke callee arguments => .invoke (mapSome f callee) (mapAll f arguments)
  | .argument modifier value => .argument modifier (mapSome f value)
  | .index receiver arguments => .index (mapSome f receiver) (mapAll f arguments)
  | .lambda params body parenthesized => .lambda (mapAll f params) (mapSome f body) parenthesized
  | .binary op left right => .binary op (mapSome f left) (mapSome f right)
  | .unary op operand => .unary op (mapSome f operand)
  | .assign op target value => .assign op (mapSome f target) (mapSome f value)
  | .paren inner => .paren (mapSome f inner)

/-- The optional term mapped. -/
def mapSome (f : α → β) : Option (Term α) → Option (Term β)
  | none => none
  | some term => some (map f term)

/-- The terms mapped. -/
def mapAll (f : α → β) : List (Term α) → List (Term β)
  | [] => []
  | term :: terms => map f term :: mapAll f terms

end

end Term

/-- A term without notes: node kinds, names, literal values, operators and flags alone. -/
abbrev Shape := Term Unit

/-- The shape of a term. -/
def Term.shape {α : Type} (term : Term α) : Shape := term.map fun _ => ()

end Refactory
