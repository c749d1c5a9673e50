import Refactory.Catalogue
import Refactory.Directory
import Refactory.Layout
import Refactory.Span.Reader
import Refactory.Grammar.Builder

/-!
# Commands

What a user can ask for: a list of the refactorings that are offered at a span of a source text, the
text changed by one of them, and the text laid out afresh. Commands work on texts and know nothing
of files, except for the error of not being able to read one.
-/
namespace Refactory

/-- Why a command failed. -/
inductive CommandError where
  /-- The file could not be read. -/
  | unreadable (path : String) (failure : ReadFailure)
  /-- The text is no program. -/
  | unparsable (failure : Failure)
  /-- The text is no span. -/
  | badSpan (text : String)
  /-- There is no refactoring of this name. -/
  | unknownRefactoring (name : String)
  /-- The refactoring is not offered at the span. -/
  | notOffered (refactoring : Refactoring) (span : Span)
  /-- The refactoring failed. -/
  | failed (error : RefactoringError)

/-- The text shown for the error. -/
def CommandError.message : CommandError → String
  | unreadable path failure => "cannot read `" ++ path ++ "`: " ++ failure.message
  | unparsable failure => "parse error: " ++ failure.message
  | badSpan text => "invalid span `" ++ text ++ "`: expected <start>..<end> byte offsets"
  | unknownRefactoring name =>
    "unknown refactoring `" ++ name ++ "` (see `recast kinds`)"
  | notOffered refactoring span =>
    "`" ++ refactoring.name ++ "` is not available at " ++ span.text
  | failed error => error.message

namespace Command

/-- A result of a command or the reason why there is none. -/
abbrev Result (α : Type) := Except CommandError α

/-- The span that a text writes. -/
def readSpan (text : String) : Result Span :=
  match Span.read? text with
  | some span => .ok span
  | none => .error (.badSpan text)

/-- The refactoring of a name. -/
def readRefactoring (name : String) : Result Refactoring :=
  match Refactoring.ofName? name with
  | some refactoring => .ok refactoring
  | none => .error (.unknownRefactoring name)

/-- The tree of a source text. -/
def readTree (source : String) : Result Tree := (Tree.parse 0 source).mapError .unparsable

/-- The text of a tree. -/
def text (tree : Tree) : String := (tree.outline tree.root).written

/-- The refactorings offered at a span, each with its title. -/
def list (source : String) (span : Span) : Result (List (Refactoring × String)) := do
  let context := Context.ofTree (← readTree source) {}
  let actions ← (context.actionsAt span).mapError .failed
  return actions.map fun action => (action.refactoring, action.title)

/-- The text changed by a refactoring at a span. -/
def apply (source : String) (span : Span) (refactoring : Refactoring) : Result String := do
  let tree ← readTree source
  let context := Context.ofTree tree {}
  match tree.covering? span with
  | none => throw (.notOffered refactoring span)
  | some number =>
    match ← (context.offered? refactoring (some number)).mapError .failed with
    | none => throw (.notOffered refactoring span)
    | some action => text <$> (action.apply tree).mapError .failed

/-- The text laid out afresh. -/
def print (source : String) : Result String := text <$> readTree source

end Command

end Refactory
