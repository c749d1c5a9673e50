import Refactory.Model
import Refactory.Tree.Walk
import Refactory.Token.Lexer
import Refactory.Settings

/-!
# New names

A name is free at a place of a program when it is a well-formed identifier, nothing is bound to it
there and it is not among the names taken by the code that is being changed. `NameScope.pick`
takes the first free name that is preferred or on a ladder, and nothing else takes that name again
(`NameScope.pick_taken`).

Two ways to guess a good name are here as well: the singular of a word in the plural, and the name
of a type in lower case.
-/
namespace Refactory

/-- Words that cannot be used as names. -/
def reservedWords : List String :=
  ["bool", "break", "byte", "case", "char", "class", "const", "continue", "decimal", "default",
    "do", "double", "else", "enum", "false", "float", "for", "foreach", "if", "in", "int",
    "interface", "long", "new", "null", "object", "out", "ref", "return", "short", "static",
    "string", "struct", "switch", "this", "true", "var", "void", "while"]

/-- An identifier is a word and not reserved. -/
def isIdentifier (text : String) : Bool :=
  match text.toList with
  | [] => false
  | first :: rest =>
    isWordStart first && rest.all isWordRest && !reservedWords.contains text

/-- The names that are declared or used as an expression at a node and everything below it. -/
def Tree.namesIn (tree : Tree) (ref : Ref) : List String :=
  (tree.descendants ref).filterMap fun ref =>
    match tree.kind ref with
    | .ident name | .param _ name | .declarator name _ | .forEach _ name _ _ => some name
    | _ => none

/-- The names that are available at one place. -/
structure NameScope where
  /-- What the names of the program mean. -/
  model : Model
  /-- The node where the name is to be used. -/
  position : Ref
  /-- The names that are not available although nothing is bound to them. -/
  taken : List String

namespace NameScope

/-- The names available at a node whose code keeps the names that it has. -/
def around (model : Model) (tree : Tree) (position : Ref) : NameScope :=
  ⟨model, position, tree.namesIn position⟩

/-- Whether a name is free. -/
def isFree (scope : NameScope) (name : String) : Bool :=
  isIdentifier name && !scope.taken.contains name &&
    (scope.model.lookupAt scope.position name).isNone

/-- The number of places of a ladder that are searched for a free name. -/
def searchLimit : Nat := 4096

/-- The first free name among the preferred ones and then on a ladder; where there is none within
the search limit, which takes a stem that makes no identifiers, the stem itself. -/
def firstFree (scope : NameScope) (preferred : List String) (ladder : NameLadder) : String :=
  let found := preferred.find? scope.isFree <|>
    (List.range searchLimit).findSome? fun place =>
      let name := ladder.candidate place
      if scope.isFree name then some name else none
  found.getD ladder.stem

/-- The scope in which a name is not available any more. -/
def reserve (scope : NameScope) (name : String) : NameScope :=
  { scope with taken := name :: scope.taken }

/-- Takes the first free name. -/
def pick (scope : NameScope) (preferred : List String) (ladder : NameLadder) :
    String × NameScope :=
  let name := scope.firstFree preferred ladder
  (name, scope.reserve name)

/-- Takes a number of names from a ladder, one after the other. -/
def pickMany (scope : NameScope) (ladder : NameLadder) : Nat → List String
  | 0 => []
  | count + 1 =>
    let (name, scope) := scope.pick [] ladder
    name :: pickMany scope ladder count

/-- A name that was picked is not free any more. -/
theorem pick_taken (scope : NameScope) (preferred : List String) (ladder : NameLadder) :
    (scope.pick preferred ladder).2.isFree (scope.pick preferred ladder).1 = false := by
  simp [pick, reserve, isFree]

end NameScope

/-- A word without its ending. -/
def withoutEnding? (ending word : List Char) : Option (List Char) :=
  if ending.isSuffixOf word then some (word.take (word.length - ending.length)) else none

/-- The singular of a word that looks like the plural of an English noun, which must be an
identifier. -/
def singular? (word : String) : Option String :=
  let letters := word.toList
  let endsIn (ending : String) : Bool := ending.toList.isSuffixOf letters
  let stem : Option (List Char) :=
    match withoutEnding? "ies".toList letters with
    | some stem => some (stem ++ ['y'])
    | none =>
      if ["sses", "shes", "ches", "xes", "zes"].any endsIn then withoutEnding? "es".toList letters
      else if endsIn "ss" || endsIn "us" then none
      else withoutEnding? "s".toList letters
  (stem.map String.ofList).filter isIdentifier

/-- The name of a type with its first letter in lower case, which must be an identifier. -/
def DataType.variableName? : DataType → Option String
  | .named name _ =>
    match name.toList with
    | [] => none
    | first :: rest =>
      let camel := String.ofList (first.toLower :: rest)
      if isIdentifier camel then some camel else none
  | _ => none

end Refactory
