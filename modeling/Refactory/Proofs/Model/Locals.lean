import Refactory.Proofs.Code.Placing
import Refactory.Proofs.Model.Declarations

/-!
# The locals of a statement list

What the statements of a block or a unit declare is bound before the first of them is read. So a
name that nothing else in the list declares means the same throughout the list, in front of its
declaration as behind it and in all that is nested in the statements (`Term.lookup_of_local`): the
references to the local that are in the list are the names that are spelled like it
(`Tree.IsUnit.exists_symbol_of_local`).
-/
namespace Refactory

namespace Term

section

variable {declarator : Outline} {name : String}

/-- A declarator is the only part of a term that declares a name. -/
structure DeclaresOnly (declarator : Outline) (name : String) (term : Outline) : Prop where
  /-- It declares the name. -/
  declares : declarator.kind.declaredName? = some name
  /-- Nothing else does. -/
  only : ∀ part ∈ term.subterms, part.kind.declaredName? = some name → part = declarator

variable {term part : Outline} {env : Environment} {listed : Bool} {visit : Visit}

/-- What is bound in a term leaves the only declaration of a name to be found. -/
theorem DeclaresOnly.lookup_bind {other : String} (declaresOnly : DeclaresOnly declarator name term)
    (inside : part ∈ term.subterms) (declares : part.kind.declaredName? = some other)
    (found : env.lookup name = some declarator.ref) :
    List.lookup name ((other, part.ref) :: env) = some declarator.ref := by
  rw [List.lookup_cons]
  cases same : name == other with
  | true => rw [declaresOnly.only part inside (beq_iff_eq.1 same ▸ declares)]
  | false => exact found

/-- After the declarators of some statements are bound the only declaration of a name among them is
found. -/
theorem DeclaresOnly.lookup_bindings {terms : List Outline}
    (declaresOnly : DeclaresOnly declarator name term)
    (held : declarator ∈ terms) (within : ∀ other ∈ terms, other ∈ term.subterms)
    (env : Environment) :
    (environmentAfter (bindings terms) env).lookup name = some declarator.ref := by
  obtain ⟨front, back, rfl⟩ := List.append_of_mem held
  have split : bindings (front ++ declarator :: back)
      = bindings front ++ .bind name declarator.ref :: bindings back := by
    simp [bindings, declaresOnly.declares]
  rw [split, environmentAfter_append, environmentAfter_bind]
  refine (@follow_invariant _ (fun env => env.lookup name = some declarator.ref) _ (by simp)
    (fun other declaration binds env found => ?_) fun listed part reads => ?_).1
  · obtain ⟨part, isPart, same⟩ := List.mem_filterMap.1 binds
    obtain ⟨spelled, declares, same⟩ := Option.map_eq_some_iff.1 same
    cases same
    exact declaresOnly.lookup_bind
      (within part (List.mem_append_right _ (.tail _ isPart))) declares found
  · obtain ⟨part, -, same⟩ := List.mem_filterMap.1 reads
    obtain ⟨spelled, -, same⟩ := Option.map_eq_some_iff.1 same
    cases same

/-- In a statement list the names of all locals are bound, and then the statements are read. -/
theorem exists_visit_of_isList {place : Place} {form : Form Place} (isList : form.isList = true)
    (visited : visit ∈ visits listed (.node place form) env)
    (below : visit.part ≠ .node place form) :
    ∃ env', visit ∈ visitsOf
    (bindings ((parts form).flatMap declarators) ++ (parts form).map (.read true)) env' := by
  have cases := visit_cases visited
  cases form
  case block statements =>
    rcases cases with rfl | outer | inner
    · exact absurd rfl below
    · cases outer
    · exact ⟨_, by simpa [innerSteps, Kind.innerTasks, stepsOf, termsAt, parts,
        Kind.slots] using inner⟩
  case unit statements =>
    rcases cases with rfl | outer | inner
    · exact absurd rfl below
    · exact ⟨_, by simpa [outerSteps, Kind.outerTasks, stepsOf, termsAt, parts,
        Kind.slots] using outer⟩
    · cases inner
  all_goals cases isList

/-- A local that no other part of a statement list declares is found throughout the list. -/
theorem DeclaresOnly.lookup_of_local {place : Place} {form : Form Place} {statement : Outline}
    (declaresOnly : DeclaresOnly declarator name (.node place form)) (isList : form.isList = true)
    (isStatement : statement ∈ parts form) (isLocal : declarator ∈ statement.declarators)
    (visited : visit ∈ visits listed (.node place form) env)
    (below : visit.part ≠ .node place form) :
    visit.env.lookup name = some declarator.ref := by
  obtain ⟨env, visited⟩ := exists_visit_of_isList isList visited below
  rw [visitsOf_bindings] at visited
  refine (@follow_invariant _ (fun env => env.lookup name = some declarator.ref) _
    (declaresOnly.lookup_bindings (List.mem_flatMap.2 ⟨statement, isStatement, isLocal⟩)
    (fun other held => ?_) env)
    (fun other declaration binds => ?_) fun listed part reads env found => ?_).2 visit visited
  · obtain ⟨statement, isChild, held⟩ := List.mem_flatMap.1 held
    exact @mem_subterms_of_child _ (.node place form) _ _ isChild
      (child_mem_subterms (declarators_subset statement held))
  · obtain ⟨part, -, same⟩ := List.mem_map.1 binds
    cases same
  · obtain ⟨part, held, same⟩ := List.mem_map.1 reads
    cases same
    refine @reading_invariant _ _ _ (fun env => env.lookup name = some declarator.ref) found
      fun inner below other declares env found => ?_
    exact declaresOnly.lookup_bind
      (@mem_subterms_of_child _ (.node place form) _ _ held below) declares found

end

end Term

namespace Tree

open Term

/-- A local that no other part of a statement list declares has a symbol, and in the list just the
names that are spelled like it refer to that. -/
theorem IsUnit.exists_symbol_of_local {tree : Tree} {whole declarator statement : Outline}
    {name : String} {place : Place}
    {form : Form Place} (unit : tree.IsUnit whole) (within : .node place form ∈ whole.subterms)
    (declaresOnly : DeclaresOnly declarator name (.node place form)) (isList : form.isList = true)
    (isStatement : statement ∈ parts form) (isLocal : declarator ∈ statement.declarators) :
    ∃ symbol, (Model.build tree).declaredSymbol declarator.ref = some symbol ∧
      ∀ part ∈ subterms (.node place form), (Model.build tree).symbolOf part.ref = some symbol ↔
        part.kind = .ident name := by
  have isPart : declarator ∈ whole.subterms := by
    have held : statement ∈ Term.children (.node place form) := isStatement
    exact subterms_trans within
      (mem_subterms_of_child held (child_mem_subterms (declarators_subset statement isLocal)))
  obtain ⟨symbol, declares⟩ := unit.exists_symbol isPart declaresOnly.declares
  refine ⟨symbol, declares, fun part inside => ⟨fun refers => ?_, fun isName => ?_⟩⟩
  · obtain ⟨other, isOther, same, isName⟩ := unit.exists_ident_of_symbolOf
      ((unit.stands.shows isPart).declaredName?.trans declaresOnly.declares) declares refers
    rwa [← subterm_unique unit.stands.once isOther (subterms_trans within inside) same]
  · have holderNamed : (form : Form Place).sort ∉ [NodeSort.type, .param] := by
      cases form <;> first | (cases isList; done) | simp [Kind.sort]
    obtain ⟨listed, env, visitedHolder⟩ := exists_visit unit.inPlace within holderNamed false []
    obtain ⟨listed', env', visited⟩ := exists_visit (unit.inPlace.subterm within) inside
      (by rw [isName]; simp [Kind.sort]) listed env
    have below : part ≠ .node place form := fun same => by
      obtain rfl : form = .ident name := by rw [← isName, same]; rfl
      cases isList
    have found := declaresOnly.lookup_of_local isList isStatement isLocal visited below
    rw [← unit.declarationOf_of_visit (visits_trans visitedHolder visited) isName] at found
    obtain ⟨other, refers, declaresOther⟩ := unit.exists_symbol_of_declarationOf found
    rw [refers, ← declaresOther, declares]

end Tree

end Refactory
