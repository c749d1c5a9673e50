import Refactory.Address
import Refactory.Command

/-!
# Sequences of refactorings

In a sequence each refactoring starts from the result of the one before. Either the changed tree
itself goes on, with the spans that its nodes have kept from the first source, or its text is read
again, so that every node has a place in the current text.
-/
namespace Refactory

/-- How a sequence goes on after a refactoring. -/
inductive Continuation where
  /-- With the changed tree. -/
  | tree
  /-- With the tree of its text. -/
  | text
deriving DecidableEq, Inhabited

/-- Where a sequence stands. -/
structure Standing where
  /-- The current program. -/
  tree : Tree
  /-- The source that the spans of the program are places in. -/
  source : String

/-- A refactoring that was done. -/
structure Done where
  /-- The action. -/
  action : Action
  /-- The text of the changed program. -/
  text : String
  /-- Where the sequence stands then, or why the text cannot be read again. -/
  next : Except Failure Standing

namespace Standing

/-- The start of a sequence. -/
def ofSource (source : String) : Except Failure Standing :=
  (⟨·, source⟩) <$> Tree.parse 0 source

/-- Where a sequence stands after a change. Versions go on from those of the changed tree, so that
no action is taken for one of another program. -/
def after (standing : Standing) (continuation : Continuation) (changed : Tree) (text : String) :
    Except Failure Standing :=
  match continuation with
  | .tree => .ok ⟨changed, standing.source⟩
  | .text => (⟨·, text⟩) <$> Tree.parse changed.clock text

/-- Does a refactoring at an address, if it is offered there. -/
def advance (standing : Standing) (continuation : Continuation) (settings : Settings)
    (refactoring : Refactoring) (address : Address) : Except RefactoringError (Option Done) := do
  let tree := standing.tree
  match tree.locate? standing.source address with
  | none => return none
  | some number =>
    match ← (Context.ofTree tree settings).offered? refactoring (some number) with
    | none => return none
    | some action =>
      let changed ← action.apply tree
      let text := Command.text changed
      return some ⟨action, text, standing.after continuation changed text⟩

end Standing

end Refactory
