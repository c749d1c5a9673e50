/-!
# Ladders of names

A ladder lists the names that a refactoring would like to give to something new: first the names
that people like best, then a stem with one number after the other, so that the list never ends.
-/
namespace Refactory

/-- Names in the order of preference, then a stem with numbers from the first one on. -/
structure NameLadder where
  /-- The names that come before the numbered ones. -/
  names : List String
  /-- What the numbered names start with. -/
  stem : String
  /-- The number of the first numbered name. -/
  first : Nat
deriving DecidableEq, Inhabited

namespace NameLadder

/-- Numbers start again from zero when they reach this one. -/
def numbering : Nat := 4294967296

/-- The name at a place of the ladder, the numbered names coming after the others. -/
def candidate (ladder : NameLadder) (place : Nat) : String :=
  match ladder.names[place]? with
  | some name => name
  | none => ladder.stem ++ toString ((ladder.first + (place - ladder.names.length)) % numbering)

/-- The names at the first places. -/
def candidates (ladder : NameLadder) (count : Nat) : List String :=
  (List.range count).map ladder.candidate

/-- The names before the numbered ones come first and in order. -/
theorem candidate_of_lt {ladder : NameLadder} {place : Nat}
    (inside : place < ladder.names.length) : ladder.candidate place = ladder.names[place] := by
  simp [candidate, inside]

/-- The numbered names follow, each with the stem in front. -/
theorem candidate_add_length (ladder : NameLadder) (place : Nat) :
    ladder.candidate (ladder.names.length + place)
      = ladder.stem ++ toString ((ladder.first + place) % numbering) := by
  simp [candidate]

end NameLadder

end Refactory
