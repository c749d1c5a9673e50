import Refactory.Code.Build
import Refactory.Event
import Refactory.Naming

/-!
# Attempts

An attempt looks for a refactoring at a node of a program. It comes to an action, to nothing, or to
a violation, and it keeps a log in each case. The tree that is looked at stays as it is: changes are
made to a copy of it, which the action holds as its result.

An action knows the version of the tree that it was computed from. `Action.apply` gives the result
for a tree of that version and refuses every other tree.
-/
namespace Refactory

/-- What must not happen in a change. -/
inductive Violation where
  /-- A node is not where it was taken to be. -/
  | misplaced (node parent : Ref)
  /-- A statement is not in the list above it. -/
  | unlistedStatement
  /-- The declaration of a temporary is not in the list above it. -/
  | unlistedTemporary
  /-- A quantifier call does not call a member. -/
  | lostMember
  /-- A quantifier call does not pass a predicate. -/
  | lostPredicate
  /-- A quantifier call passes something else than a lambda. -/
  | predicateNotLambda
  /-- An operator has no opposite. -/
  | noOpposite (op : BinaryOp)
  /-- A predicate cannot be negated. -/
  | notNegatable (kind : NodeKind)
  /-- What holds a layer of a composition is no argument. -/
  | holeNotArgument
  /-- A call of a chain does not call a member. -/
  | lostChainMember
deriving DecidableEq, Inhabited

/-- What is said of a node. -/
def Ref.description : Ref → String
  | none => "NodeId::INVALID"
  | some number => "NodeId(" ++ toString number ++ ")"

/-- What is said of a violation; a kind of node is told by its label. -/
def Violation.message : Violation → String
  | misplaced node none => Ref.description node ++ " is not a child of None"
  | misplaced node parent =>
    Ref.description node ++ " is not a child of Some(" ++ Ref.description parent ++ ")"
  | unlistedStatement => "statement missing from its list"
  | unlistedTemporary => "temporary declaration missing from its list"
  | lostMember => "quantifier call lost its member"
  | lostPredicate => "quantifier call lost its predicate"
  | predicateNotLambda => "quantifier predicate is not a lambda"
  | noOpposite op => "`" ++ op.symbol ++ "` has no negation"
  | notNegatable kind => "cannot negate predicate " ++ kind.label
  | holeNotArgument => "composition hole is not an argument"
  | lostChainMember => "call spine lost a member"

/-- Why an attempt or an action failed. -/
inductive RefactoringError where
  /-- Looking for a match and changing it disagree about the program. -/
  | violation (cause : Violation)
  /-- The action was computed from another version of the tree. -/
  | stale (title : String)
deriving DecidableEq, Inhabited

/-- The text shown for a failure. -/
def RefactoringError.message : RefactoringError → String
  | violation cause => "refactoring invariant violated: " ++ cause.message
  | stale title =>
    "`" ++ title ++ "` was computed for a different version of the tree"

/-- What an attempt looks at. -/
structure Context where
  /-- The program. -/
  tree : Tree
  /-- What its names mean. -/
  model : Model
  /-- The names for what is added. -/
  settings : Settings

/-- An offered refactoring with its result. -/
structure Action where
  /-- Which refactoring it is. -/
  refactoring : Refactoring
  /-- What it does, in words. -/
  title : String
  /-- The version of the tree that it was computed from. -/
  base : Nat
  /-- The changed tree. -/
  result : Tree

/-- The changed tree, if the action was computed from this version of the tree. -/
def Action.apply (action : Action) (tree : Tree) : Except RefactoringError Tree :=
  if tree.version = action.base then .ok action.result else .error (.stale action.title)

/-- An action is good for the trees of the version that it was computed from, and for no others. -/
theorem Action.apply_eq_ok_iff {action : Action} {tree result : Tree} :
    action.apply tree = .ok result ↔ tree.version = action.base ∧ result = action.result := by
  unfold Action.apply
  split <;> simp_all [eq_comm]

/-- The events so far. -/
abbrev Log := Array Event

/-- A search that keeps a log and may fail. -/
abbrev Attempt (α : Type) := ExceptT RefactoringError (StateM Log) α

namespace Attempt

/-- Puts an event into the log. -/
def note (event : Event) : Attempt Unit := modify (·.push event)

/-- Puts events into the log. -/
def noteAll (events : List Event) : Attempt Unit := modify (· ++ events.toArray)

/-- Comes to nothing, for a reason. -/
def refuse (refusal : Refusal) : Attempt (Option Action) := do
  note (.refused refusal)
  return none

/-- Takes a name and logs it. -/
def pickName (scope : NameScope) (preferred : List String) (ladder : NameLadder) :
    Attempt (String × NameScope) := do
  let picked := scope.pick preferred ladder
  note (.namePicked picked.1)
  return picked

end Attempt

/-- A change of a tree that must not come upon a violation. -/
abbrev Change (α : Type) := StateT Tree (Except RefactoringError) α

instance : MonadLift Edit Change := ⟨fun edit tree => .ok (edit tree)⟩

namespace Change

/-- Fails with a violation unless a change found its place. -/
def demand (found : Bool) (cause : Violation) : Change Unit :=
  if found then return () else throw (.violation cause)

/-- What was found; fails with a violation where nothing was. -/
def require {α : Type} (found : Option α) (cause : Violation) : Change α :=
  match found with
  | some value => return value
  | none => throw (.violation cause)

/-- Puts a node in the place of another one below the given parent, or at the root. The parent is
looked up before the node is built, since what is built may already hold the other node. -/
def put (parent target replacement : Ref) : Change Unit := do
  match parent with
  | none => Tree.setRoot replacement
  | parent =>
    demand (← Tree.replaceChild parent target replacement) (.misplaced target parent)

/-- Puts statements in front of a statement, with a block around all of them unless the statement is
in a statement list. -/
def putBefore (statement : Ref) (before : List Ref) : Change Unit := do
  let tree ← get
  let parent := tree.parent statement
  let statements := before ++ [statement]
  if parent.isSome && tree.isStatementList parent then
    demand (← Tree.spliceChild parent statement statements) .unlistedStatement
  else
    put parent statement (← Build.block statements)

end Change

namespace Context

/-- Changes a copy of the program, or a tree made from it, and offers the result. -/
def offer (context : Context) (refactoring : Refactoring) (title : String) (start : Tree)
    (change : Change Unit) : Attempt (Option Action) := do
  match change.run start with
  | .ok (_, result) =>
    Attempt.note (.offered refactoring title)
    return some ⟨refactoring, title, context.tree.version, result⟩
  | .error error => throw error

/-- The names available at a node. -/
def namesAt (context : Context) (position : Ref) : NameScope :=
  .around context.model context.tree position

end Context

end Refactory
