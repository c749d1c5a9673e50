/-!
# Refactorings

The refactorings by name, in the order in which they are offered.
-/
namespace Refactory

/-- A refactoring of a program. -/
inductive Refactoring where
  /-- Merge filters into one with the conjunction of the predicates. -/
  | mergeWhere
  /-- Split a filter with a conjunction into one filter for each operand. -/
  | splitWhere
  /-- Merge projections into one with the composition of the functions. -/
  | mergeSelect
  /-- Split a projection with a composition into one projection for each call. -/
  | splitSelect
  /-- Replace a quantifier by the other one, negating the predicate and the result. -/
  | invertQuantifier
  /-- Convert a counted loop to a loop over elements. -/
  | forToForEach
  /-- Convert a loop over elements to a counted loop. -/
  | forEachToFor
  /-- Inline temporaries into a chain of calls. -/
  | chainCalls
  /-- Introduce temporaries for the calls of a chain. -/
  | unchainCalls
deriving DecidableEq, Inhabited

namespace Refactoring

/-- Every refactoring once. -/
def all : List Refactoring :=
  [mergeWhere, splitWhere, mergeSelect, splitSelect, invertQuantifier, forToForEach, forEachToFor,
    chainCalls, unchainCalls]

/-- The name by which a user asks for the refactoring. -/
def name : Refactoring → String
  | mergeWhere => "merge-where"
  | splitWhere => "split-where"
  | mergeSelect => "merge-select"
  | splitSelect => "split-select"
  | invertQuantifier => "invert-all-any"
  | forToForEach => "for-to-foreach"
  | forEachToFor => "foreach-to-for"
  | chainCalls => "chain-calls"
  | unchainCalls => "unchain-calls"

/-- The refactoring of a name. -/
def ofName? (text : String) : Option Refactoring := all.find? (·.name == text)

/-- The list of all refactorings leaves none out. -/
theorem mem_all (refactoring : Refactoring) : refactoring ∈ all := by
  cases refactoring <;> decide

/-- The name of a refactoring names it and no other. -/
theorem ofName?_name (refactoring : Refactoring) :
    ofName? refactoring.name = some refactoring := by
  cases refactoring <;> decide

end Refactoring

end Refactory
