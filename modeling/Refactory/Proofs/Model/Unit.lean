import Refactory.Proofs.Model.Meaning

/-!
# Units

A tree is sorted when it is that of a unit and each of its nodes has children of the right sorts
(`Tree.IsSorted`), as those of source texts are (`Tree.isSorted_of_parse`). What stands in such a
tree is taken together in `Tree.IsUnit`. In its model, parameters have symbols, only names of its
own name refer to a parameter, and where the body of a lambda does not declare the name of the
parameter once more, all names that are spelled like it refer to it
(`Tree.IsUnit.symbolOf_of_lambda`).
-/
namespace Refactory

namespace Tree

open Term

/-- A tree of a unit whose nodes have children of the right sorts. -/
structure IsSorted (tree : Tree) : Prop where
  /-- The root is a unit. -/
  isUnit : (tree.kind tree.root).sort = .unit
  /-- All children are of the right sorts. -/
  inPlace : (tree.outline tree.root).All InPlace

/-- A term is that of a unit with children of the right sorts, and the program of a tree. -/
structure IsUnit (tree : Tree) (whole : Outline) : Prop extends tree.IsProgram whole where
  /-- It is a unit. -/
  isUnit : whole.kind.sort = .unit
  /-- All children are of the right sorts. -/
  inPlace : whole.All InPlace

/-- A sorted tree that is well formed has a unit for its program. -/
theorem IsSorted.exists_isUnit {tree : Tree} (sorted : tree.IsSorted)
    (wellFormed : tree.WellFormed) :
    ∃ whole, tree.IsUnit whole := by
  obtain ⟨whole, program⟩ := wellFormed_iff.1 wellFormed
  obtain ⟨isUnit, inPlace⟩ := sorted
  rw [program.outline_root] at inPlace
  rw [← program.root, Kind.sort_of_skeleton program.stands.shown.here.depicts.skeleton] at isUnit
  exact ⟨whole, program, isUnit, inPlace⟩

theorem IsUnit.isSorted {tree : Tree} {whole : Outline}
    (unit : tree.IsUnit whole) : tree.IsSorted := by
  refine ⟨?_, unit.outline_root ▸ unit.inPlace⟩
  rw [← unit.root, Kind.sort_of_skeleton unit.stands.shown.here.depicts.skeleton]
  exact unit.isUnit

/-- The tree of a unit with children of the right sorts is well formed and sorted. -/
theorem wellFormed_and_isSorted_ofTerm (clock : Nat) {term : SourceTerm}
    (isUnit : term.kind.sort = .unit) (inPlace : term.All InPlace) :
    (ofTerm clock term).WellFormed ∧ (ofTerm clock term).IsSorted := by
  obtain ⟨whole, program, records⟩ := exists_isProgram_ofTerm clock term
  have shape : term.shape = whole.shape := by rw [← records, shape_map]
  refine ⟨program.wellFormed,
    IsUnit.isSorted ⟨program, ?_, all_inPlace_of_shape shape.symm inPlace⟩⟩
  rw [← sort_shape, ← shape, sort_shape, isUnit]

/-- The tree of a source text is sorted. -/
theorem isSorted_of_parse {clock : Nat} {source : String} {tree : Tree}
    (parsed : Tree.parse clock source = .ok tree) :
    tree.IsSorted := by
  obtain ⟨term, whole, read, program, records⟩ := exists_isProgram_of_parse parsed
  have shape : whole.shape = term.shape := by rw [← records, shape_map]
  have readable := SourceTerm.readable_of_parse read
  rw [← shape] at readable
  have sound := readable.sound
  rw [Term.shape, all_map_iff] at sound
  have isUnit : whole.kind.sort = .unit := by
    have isUnit := readable.isUnit
    rcases whole with ⟨place, form⟩
    cases form <;> first | rfl | cases isUnit
  exact IsUnit.isSorted
    ⟨program, isUnit, sound.mono fun part isSound => inPlace_of_isFormed isSound.formed⟩

namespace IsUnit

variable {tree : Tree} {whole part : Outline} {name : String} {symbol : SymbolId}
  (unit : tree.IsUnit whole)

include unit

theorem sorts : whole.All HasSorts := unit.inPlace.mono fun _ inPlace => inPlace.hasSorts

/-- What is put in the place of a part of the same sort makes another unit. -/
theorem swap {after : Tree} {new : Outline} (within : part ∈ whole.subterms)
    (program : after.IsProgram (Term.swap part.ref new whole)) (inPlace : new.All InPlace)
    (same : new.kind.sort = part.kind.sort)
    (sort : part.kind.sort = .expression ∨ part.kind.sort = .statement) :
    after.IsUnit (Term.swap part.ref new whole) := by
  refine ⟨program, ?_, all_inPlace_swap unit.stands.once within unit.inPlace inPlace same⟩
  have above : whole.ref ≠ part.ref := fun here => by
    rw [← subterm_unique unit.stands.once (self_mem_subterms whole) within here,
      unit.isUnit] at sort
    rcases sort with sort | sort <;> cases sort
  rw [kind_swap_of_ne above, Kind.sort_of_skeleton (skeleton_mapChildren _ _), unit.isUnit]

/-- The model of a unit is consistent with it, and every declaration has a symbol. -/
theorem exists_consistent : ∃ nodes, Model.Consistent tree nodes (Model.build tree) ∧
    ∀ ref ∈ whole.refs, Model.Settled tree (Model.build tree) ref := by
  obtain ⟨place, members, same⟩ : ∃ place members, whole = .node place (.unit members) := by
    have isUnit := unit.isUnit
    rcases whole with ⟨place, form⟩
    cases form <;> cases isUnit
    exact ⟨place, _, rfl⟩
  exact Model.exists_consistent_build unit.toIsProgram unit.sorts same

/-- What declares a name has a symbol. -/
theorem exists_symbol (within : part ∈ whole.subterms)
    (declares : part.kind.declaredName? = some name) :
    ∃ symbol, (Model.build tree).declaredSymbol part.ref = some symbol := by
  obtain ⟨nodes, -, settled⟩ := unit.exists_consistent
  have shows := all_iff_subterms.1 unit.stands.shown part within
  refine Option.isSome_iff_exists.1 ((settled part.ref (mem_refs.2 ⟨part, within, rfl⟩)).1 ?_)
  rw [shows.declaredName?, declares]
  rfl

/-- Nothing but names that are spelled like a declaration refers to its symbol. -/
theorem exists_ident_of_symbolOf {declaration ref : Ref}
    (declares : (tree.kind declaration).declaredName? = some name)
    (isSymbol : (Model.build tree).declaredSymbol declaration = some symbol)
    (refers : (Model.build tree).symbolOf ref = some symbol) :
    ∃ part ∈ whole.subterms, part.ref = ref ∧ part.kind = .ident name := by
  obtain ⟨nodes, consistent, -⟩ := unit.exists_consistent
  obtain ⟨part, within, rfl, other, isName⟩ :=
    unit.toIsProgram.exists_ident_of_symbolOf (Option.isSome_iff_exists.2 ⟨symbol, refers⟩)
  have shows := all_iff_subterms.1 unit.stands.shown part within
  obtain ⟨spelled, signature⟩ := consistent.declared.1 isSymbol
  obtain rfl : spelled = name :=
    Option.some.inj ((consistent.named signature).2.symm.trans declares)
  obtain ⟨declared, signature', -⟩ := consistent.refers ((isName ▸ shows.depicts).of_ident) refers
  obtain rfl : other = spelled := by
    rw [signature] at signature'
    cases signature'
    rfl
  exact ⟨part, within, rfl, isName⟩

/-- Where the body of a lambda does not declare the name of the parameter once more, every name in
the body that is spelled like the parameter refers to it. -/
theorem symbolOf_of_lambda {lambda param body : Outline}
    {type : Option Outline} {parenthesized : Bool} (within : lambda ∈ whole.subterms)
    (isLambda : lambda.kind = .lambda [param] (some body) parenthesized)
    (isParam : param.kind = .param type name)
    (undeclared : ∀ inner ∈ body.subterms, inner.kind.declaredName? ≠ some name)
    (inside : part ∈ body.subterms) (isName : part.kind = .ident name) :
    (Model.build tree).symbolOf part.ref = (Model.build tree).declaredSymbol param.ref := by
  have inPlace := unit.inPlace.subterm within
  obtain ⟨listed, env, visited⟩ :=
    exists_visit unit.inPlace within (by rw [isLambda]; simp [Kind.sort]) false []
  have held : body ∈ lambda.children := by simp [Term.children, isLambda, parts]
  obtain ⟨listed', env', visitedName⟩ :=
    exists_visit (inPlace.child held) inside (by rw [isName]; simp [Kind.sort]) false
      ((name, param.ref) :: env)
  have understood := unit.toIsProgram.understood_of_visit unit.sorts unit.isUnit
    (visits_trans (visit_body isLambda isParam visited) visitedName)
  rw [understood.refers name isName, Model.meaning]
  have found := lookup_of_visit undeclared visitedName
  dsimp only at found ⊢
  rw [found, List.lookup_cons_self]
  rfl

end IsUnit

end Tree

end Refactory
