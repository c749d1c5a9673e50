import Refactory.Naming.Ladder

/-!
# Settings of refactorings

The names that refactorings give to what they add to a program.
-/
namespace Refactory

/-- The ladders that new names are taken from. -/
structure Settings where
  /-- Counters of counted loops. -/
  counter : NameLadder := ⟨["i", "k", "j", "index", "counter"], "index", 1⟩
  /-- Variables of loops over elements, after the names that the collection and the type of its
  elements suggest. -/
  iteration : NameLadder := ⟨["item", "element", "value", "current"], "item", 1⟩
  /-- Parameters of merged lambdas. -/
  lambdaParameter : NameLadder := ⟨["x", "y", "z"], "x", 1⟩
  /-- Locals that hold a collection copied into an array. -/
  array : NameLadder := ⟨["array"], "array", 1⟩
  /-- Locals that hold a collection which can be indexed, but is not a plain name. -/
  items : NameLadder := ⟨["items"], "items", 1⟩
  /-- Locals that hold the intermediate results of a chain of calls. -/
  temporary : NameLadder := ⟨[], "newVar", 0⟩
  /-- The parameter of the lambda that a function named as an argument stands for. -/
  placeholder : String := "__arg"
deriving DecidableEq, Inhabited

/-- The settings with numbered temporaries of a stem. -/
def Settings.withTemporaryStem (settings : Settings) (stem : String) : Settings :=
  { settings with temporary := ⟨[], stem, 0⟩ }

end Refactory
