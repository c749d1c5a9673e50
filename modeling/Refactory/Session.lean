import Refactory.Tree.Edit

/-!
# Sessions

A session is a number of trees whose versions come from one clock. Copies keep the version of what
they were copied from, and every edit of any tree takes a version that no tree of the session had
before.
-/
namespace Refactory

/-- Trees whose versions come from one clock. -/
structure Session where
  /-- The trees, each at its number. -/
  trees : Array Tree
  /-- The version that the next edit of any tree gives. -/
  clock : Nat

namespace Session

/-- The session without trees. -/
def start : Session := ⟨#[], 0⟩

/-- The session with one tree. -/
def ofTree (tree : Tree) : Session := ⟨#[tree], tree.clock⟩

/-- A tree of the session; one that is not there reads as an empty tree. -/
def tree (session : Session) (number : Nat) : Tree :=
  session.trees[number]?.getD (Tree.empty session.clock)

/-- Adds an empty tree. -/
def create : StateM Session Nat := fun session =>
  (session.trees.size, ⟨session.trees.push (.empty session.clock), session.clock + 1⟩)

/-- Adds a copy of a tree. -/
def copy (number : Nat) : StateM Session Nat := fun session =>
  (session.trees.size, { session with trees := session.trees.push (session.tree number) })

/-- Puts a copy of one tree in the place of another. -/
def assign (target number : Nat) : StateM Session Unit := fun session =>
  ((), { session with trees := session.trees.setIfInBounds target (session.tree number) })

/-- Edits a tree. -/
def edit {α : Type} (number : Nat) (change : Edit α) : StateM Session α := fun session =>
  let (result, tree) := change { session.tree number with clock := session.clock }
  (result, ⟨session.trees.setIfInBounds number tree, tree.clock⟩)

/-- Whether two trees have the same version. -/
def sameVersion (session : Session) (left right : Nat) : Bool :=
  (session.tree left).sameVersion (session.tree right)

end Session

end Refactory
