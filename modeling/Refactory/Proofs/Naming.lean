import Refactory.Proofs.Model.Scopes

/-!
# New names are new

The name that is picked is free when any of the names that are tried is (`NameScope.isFree_pick`),
and only then, unless the stem of the ladder is free as it is (`NameScope.isFree_pick_iff`): the
search is bounded, so a place where all tried names are taken gets one of them. A free name is
neither used nor declared in the code around which it is free (`Context.not_mem_namesIn_of_isFree`,
`Tree.Stands.unnamed_of_namesIn`).
-/
namespace Refactory

variable {name : String}

/-- The name that is picked is free, when one of the preferred names or of the first names on the
ladder is. -/
theorem NameScope.isFree_pick {scope : NameScope} {preferred : List String} {ladder : NameLadder}
    (free : ∃ name ∈ preferred ++ ladder.candidates searchLimit, scope.isFree name = true) :
    scope.isFree (scope.pick preferred ladder).1 = true := by
  change scope.isFree
    (((preferred.find? scope.isFree).orElse fun _ => (List.range searchLimit).findSome? fun place =>
    if scope.isFree (ladder.candidate place) then some (ladder.candidate place)
    else none).getD ladder.stem) = true
  cases isPreferred : preferred.find? scope.isFree with
  | some name => exact List.find?_some isPreferred
  | none =>
    rw [Option.orElse_none]
    cases onLadder : (List.range searchLimit).findSome? fun place =>
        if scope.isFree (ladder.candidate place) then some (ladder.candidate place) else none with
    | some name =>
      obtain ⟨place, -, found⟩ := List.exists_of_findSome?_eq_some onLadder
      split at found
      · rename_i isFree
        exact Option.some.inj found ▸ isFree
      · cases found
    | none =>
      obtain ⟨name, tried, isFree⟩ := free
      rcases List.mem_append.1 tried with inPreferred | inLadder
      · exact absurd isFree (List.find?_eq_none.1 isPreferred name inPreferred)
      · obtain ⟨place, inRange, rfl⟩ := List.mem_map.1 inLadder
        simpa [isFree] using List.findSome?_eq_none_iff.1 onLadder place inRange

namespace NameScope

variable {scope : NameScope} {preferred : List String} {ladder : NameLadder}

/-- The stem itself is taken, free or not, when nothing that is tried is free. -/
theorem pick_eq_stem
    (none_free : ∀ name ∈ preferred ++ ladder.candidates searchLimit, scope.isFree name = false) :
    (scope.pick preferred ladder).1 = ladder.stem := by
  have none_preferred : preferred.find? scope.isFree = none :=
    List.find?_eq_none.2 fun name among => by simp [none_free name (List.mem_append_left _ among)]
  have none_numbered : ((List.range searchLimit).findSome? fun place =>
      if scope.isFree (ladder.candidate place) then some (ladder.candidate place)
        else none) = none :=
    List.findSome?_eq_none_iff.2 fun place inRange => by
      simp [none_free _ (List.mem_append_right _ (List.mem_map.2 ⟨place, inRange, rfl⟩))]
  simp only [pick, firstFree, none_preferred, none_numbered]
  rfl

/-- What is picked is free exactly when something that is tried is, or else the stem. -/
theorem isFree_pick_iff : scope.isFree (scope.pick preferred ladder).1 = true ↔
    (∃ name ∈ preferred ++ ladder.candidates searchLimit, scope.isFree name = true) ∨
    scope.isFree ladder.stem = true := by
  by_cases free : ∃ name ∈ preferred ++ ladder.candidates searchLimit, scope.isFree name = true
  · simp only [isFree_pick free, free, true_or]
  · rw [pick_eq_stem (by simpa using free)]
    simp only [free, false_or]

/-- As many names are picked as are wanted. -/
theorem length_pickMany (scope : NameScope) (ladder : NameLadder) (count : Nat) :
    (scope.pickMany ladder count).length = count := by
  induction count generalizing scope with
  | zero => rfl
  | succ count ih => exact congrArg (· + 1) (ih _)

end NameScope

/-- A free name is not among those that are used where it is free. -/
theorem Context.not_mem_namesIn_of_isFree {context : Context} {ref : Ref}
    (free : (context.namesAt ref).isFree name = true) : name ∉ context.tree.namesIn ref := by
  rw [NameScope.isFree, Bool.and_eq_true, Bool.and_eq_true, Bool.not_eq_true', List.contains_eq_mem,
    decide_eq_false_iff_not] at free
  exact free.1.2

namespace Tree

open Term

variable {tree : Tree} {term part : Outline}

/-- A name that is not among those in a term is neither used nor declared in it. -/
theorem Stands.unnamed_of_namesIn (stands : tree.Stands term)
    (absent : name ∉ tree.namesIn term.ref) (inside : part ∈ term.subterms) :
    part.kind ≠ .ident name ∧ part.kind.declaredName? ≠ some name := by
  have shows := all_iff_subterms.1 stands.shown part inside
  have among : part.ref ∈ tree.descendants term.ref := by
    rw [stands.descendants]
    exact mem_refs.2 ⟨part, inside, rfl⟩
  refine ⟨fun isName => absent (List.mem_filterMap.2 ⟨part.ref, among, ?_⟩), fun isDeclared =>
    absent (List.mem_filterMap.2 ⟨part.ref, among, ?_⟩)⟩
  · have depicts := shows.depicts
    rw [isName] at depicts
    rw [depicts.of_ident]
  · rw [← shows.declaredName?] at isDeclared
    split <;> simp_all [Kind.declaredName?]

/-- The names in a term are those that are used or declared in it. -/
theorem Stands.exists_of_mem_namesIn (stands : tree.Stands term)
    (among : name ∈ tree.namesIn term.ref) :
    ∃ part ∈ term.subterms, part.kind = .ident name ∨ part.kind.declaredName? = some name := by
  obtain ⟨ref, below, found⟩ := List.mem_filterMap.1 among
  rw [stands.descendants] at below
  obtain ⟨part, inside, rfl⟩ := mem_refs.1 below
  have shows := all_iff_subterms.1 stands.shown part inside
  refine ⟨part, inside, ?_⟩
  rw [← shows.declaredName?]
  split at found
  case h_1 used isIdent =>
    obtain rfl := Option.some.inj found
    exact .inl (isIdent ▸ shows.depicts).ident
  case h_5 => cases found
  all_goals
    rename_i isDeclaration
    rw [isDeclaration]
    exact .inr found

end Tree

end Refactory
