import Refactory.Address
import Refactory.Command

/-!
# Inquiries

An inquiry asks whether a refactoring is offered at an address of a source text, and why. It reads
the text, finds the node, resolves the names of the program and looks for the refactoring at the
node, and all events on the way are logged, whether or not the inquiry comes to an end.
-/
namespace Refactory

/-- What an inquiry has found. -/
structure Finding where
  /-- The program. -/
  tree : Tree
  /-- The node at the address. -/
  node : Ref
  /-- What is offered there, with the changed program. -/
  offer : Option (Action × Tree)

/-- An inquiry: it keeps a log and may fail. -/
abbrev Inquiry (α : Type) := ExceptT CommandError (StateM Log) α

namespace Inquiry

/-- Puts an event into the log. -/
def note (event : Event) : Inquiry Unit := modify (·.push event)

/-- The step of an inquiry that has a result, or fails, without a log. -/
def ofResult {α : Type} (result : Command.Result α) : Inquiry α := fun log => (result, log)

/-- The step of an inquiry that an attempt makes. -/
def ofAttempt {α : Type} (attempt : Attempt α) : Inquiry α := fun log =>
  let (outcome, log) := attempt.run log
  (outcome.mapError .failed, log)

/-- Asks for the refactoring of a name at an address. The names of the program are only resolved
when there is a node at the address. -/
def find (settings : Settings) (source name : String) (address : Address) : Inquiry Finding := do
  let tree ← ofResult (Command.readTree source)
  note (.ofTree tree)
  let refactoring ← ofResult (Command.readRefactoring name)
  match tree.locate? source address with
  | none => return ⟨tree, none, none⟩
  | some number =>
    let context := Context.ofTree tree settings
    note (.ofModel context.model)
    match ← ofAttempt (context.attempt refactoring (some number)) with
    | none => return ⟨tree, some number, none⟩
    | some action =>
      let changed ← ofResult ((action.apply tree).mapError .failed)
      return ⟨tree, some number, some (action, changed)⟩

end Inquiry

end Refactory
