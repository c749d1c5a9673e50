import Refactory.Proofs.Model.Unit

/-!
# The declarations of names

What a name refers to is said by the node that declares it (`Model.declarationOf`), so that names
can be compared across programs. In the model of a unit it is the node that the environment in front
of the name tells (`Tree.IsUnit.declarationOf_of_visit`).

Reading a part adds to the environment in front of the part and depends on nothing in it
(`Term.visits_append`). So a part that is moved to another place is read there as before, but for
the names that it does not declare itself. A part of an expression that lies in none of its lambdas
is read in the environment of the expression (`Term.Exposed.visited`).
-/
namespace Refactory

variable {ref : Ref} {outerListed : Bool} {outerEnv : Environment} {tree : Tree} {declaration : Ref}

/-- The node that declares what a name refers to. -/
def Model.declarationOf (model : Model) (ref : Ref) : Option Ref := do
  let symbol ← model.symbolOf ref
  return (← model.symbols[symbol]?).declaration

open Term in
/-- In the model of a unit a name refers to what the node declares that the environment in front of
the name tells. -/
theorem Tree.IsUnit.declarationOf_of_visit {whole : Outline} {name : String} {visit : Visit}
    (unit : tree.IsUnit whole) (visited : visit ∈ visits false whole [])
    (isName : visit.part.kind = .ident name) :
    (Model.build tree).declarationOf visit.part.ref = visit.env.lookup name := by
  have understood := unit.toIsProgram.understood_of_visit unit.sorts unit.isUnit visited
  obtain ⟨nodes, consistent, -⟩ := unit.exists_consistent
  rw [Model.declarationOf, understood.refers name isName, Model.meaning]
  cases found : visit.env.lookup name with
  | none => rfl
  | some declaration =>
    obtain ⟨front, back, same, -⟩ := List.lookup_eq_some_iff.1 found
    have known := understood.knows (name, declaration) (same ▸ List.mem_append_right _ (.head _))
    obtain ⟨symbol, isSymbol⟩ := Option.isSome_iff_exists.1 known
    obtain ⟨spelled, signature⟩ := consistent.declared.1 isSymbol
    obtain ⟨data, isData, rest⟩ := Option.map_eq_some_iff.1 signature
    cases rest
    have isSymbol : (Model.build tree).declaredSymbol data.declaration = some symbol := isSymbol
    simp [isSymbol, isData]

open Term in
/-- What a name refers to has a symbol, to which the name refers. -/
theorem Tree.IsUnit.exists_symbol_of_declarationOf {whole : Outline}
    (unit : tree.IsUnit whole) (refers : (Model.build tree).declarationOf ref = some declaration) :
    ∃ symbol, (Model.build tree).symbolOf ref = some symbol ∧
    (Model.build tree).declaredSymbol declaration = some symbol := by
  obtain ⟨nodes, consistent, -⟩ := unit.exists_consistent
  obtain ⟨symbol, isSymbol, found⟩ := Option.bind_eq_some_iff.1 refers
  obtain ⟨data, isData, same⟩ := Option.bind_eq_some_iff.1 found
  cases same
  refine ⟨symbol, isSymbol, consistent.declared.2 ⟨data.name, ?_⟩⟩
  rw [Model.signature?, isData]
  rfl

/-- A name refers to what declares its symbol. -/
theorem Tree.IsUnit.declarationOf_of_symbolOf {whole : Term Place} {symbol : SymbolId}
    (unit : tree.IsUnit whole) (refers : (Model.build tree).symbolOf ref = some symbol)
    (declares : (Model.build tree).declaredSymbol declaration = some symbol) :
    (Model.build tree).declarationOf ref = some declaration := by
  obtain ⟨nodes, consistent, -⟩ := unit.exists_consistent
  obtain ⟨spelled, signature⟩ := consistent.declared.1 declares
  obtain ⟨data, isData, rest⟩ := Option.map_eq_some_iff.1 signature
  cases rest
  simp [Model.declarationOf, refers, isData]

/-- No two nodes declare one symbol. -/
theorem Tree.IsUnit.eq_of_declaredSymbol {whole : Term Place} {other : Ref} {symbol : SymbolId}
    (unit : tree.IsUnit whole)
    (declares : (Model.build tree).declaredSymbol declaration = some symbol)
    (declaresOther : (Model.build tree).declaredSymbol other = some symbol) :
    declaration = other := by
  obtain ⟨nodes, consistent, -⟩ := unit.exists_consistent
  obtain ⟨_, signature⟩ := consistent.declared.1 declares
  obtain ⟨_, signatureOther⟩ := consistent.declared.1 declaresOther
  cases signature.symm.trans signatureOther
  rfl

namespace Environment

variable {front env : Environment} {name spelled : String} {old new : Ref}

/-- What is found behind a binding in the midst of an environment is found without it, unless it is
the binding itself. -/
theorem lookup_of_unused (unused : (front ++ (name, old) :: env).lookup spelled ≠ some old) :
    (front ++ env).lookup spelled = (front ++ (name, old) :: env).lookup spelled := by
  rw [List.lookup_append, List.lookup_cons] at unused
  rw [List.lookup_append, List.lookup_append, List.lookup_cons]
  cases isFront : front.lookup spelled with
  | some found => rfl
  | none =>
    cases isName : spelled == name with
    | true => exact absurd (by simp [isFront, isName]) unused
    | false => rfl

/-- When a name is bound to another node in the midst of an environment, what was found there is
found still, or it was the one node and is the other now. -/
theorem lookup_rebound (absent : (front ++ (name, new) :: env).lookup spelled ≠ some old) :
    (front ++ (name, old) :: env).lookup spelled ≠ some old ∧
        (front ++ (name, new) :: env).lookup spelled
          = (front ++ (name, old) :: env).lookup spelled ∨
      (front ++ (name, old) :: env).lookup spelled = some old ∧
      (front ++ (name, new) :: env).lookup spelled = some new := by
  rw [List.lookup_append, List.lookup_cons] at absent
  rw [List.lookup_append, List.lookup_append, List.lookup_cons, List.lookup_cons]
  cases isFront : front.lookup spelled with
  | some found => exact .inl ⟨by simpa [isFront] using absent, rfl⟩
  | none =>
    cases isName : spelled == name with
    | true => exact .inr ⟨rfl, rfl⟩
    | false => exact .inl ⟨by simpa [isFront, isName] using absent, rfl⟩

end Environment

namespace Term

/-- A visit in an environment with more behind it. -/
def Visit.onto (env : Environment) (visit : Visit) : Visit := { visit with env := visit.env ++ env }

section

variable {listed : Bool} {part term whole : Outline} {steps : List Step} {env front : Environment}
  {visit : Visit}

/-- Following steps adds to an environment what it adds to its front, where reading each part
does. -/
theorem follow_append (each : ∀ listed part, Step.read listed part ∈ steps →
      ∀ front, reading listed part (front ++ env)
        = ((reading listed part front).1 ++ env, (reading listed part front).2.map (.onto env)))
    (front : Environment) : follow reading steps (front ++ env) =
      ((follow reading steps front).1 ++ env, (follow reading steps front).2.map (.onto env)) := by
  induction steps generalizing front with
  | nil => rfl
  | cons step steps ih =>
    have ih := ih fun listed part member => each listed part (.tail _ member)
    cases step with
    | bind name declaration => exact ih ((name, declaration) :: front)
    | read listed part =>
      rw [follow, follow]
      simp only [each listed part (.head _) front, ih, List.map_append]

/-- Reading a term adds to an environment what it adds to its front. -/
theorem reading_append (listed : Bool) (term : Outline)
    (front env : Environment) : reading listed term (front ++ env) =
    ((reading listed term front).1 ++ env, (reading listed term front).2.map (.onto env)) := by
  induction term using Term.induction generalizing listed front with
  | step place form ih =>
    have within (tasks : List Task) (front : Environment) :
        follow reading (tasks.flatMap (stepsOf place.ref form)) (front ++ env) =
          ((follow reading (tasks.flatMap (stepsOf place.ref form)) front).1 ++ env,
            (follow reading (tasks.flatMap (stepsOf place.ref form)) front).2.map (.onto env)) :=
      follow_append
      (fun listed part member front => ih part (mem_parts_of_step member) listed front) front
    rw [reading_node, reading_node, environmentAfter, visitsOf, visitsOf, outerSteps, innerSteps,
      within, within]
    simp [environmentAfter, visitsOf, Visit.onto]

theorem visits_append (listed : Bool) (term : Outline) (front env : Environment) :
    visits listed term (front ++ env) = (visits listed term front).map (.onto env) :=
  congrArg Prod.snd (reading_append listed term front env)

/-- What is visited in an environment is visited in front of any other with what the term adds to
it. -/
theorem exists_visits_of_visit (visited : visit ∈ visits listed term env) : ∃ front : Environment,
    visit.env = front ++ env ∧
    ∀ other, ⟨visit.part, visit.listed, front ++ other⟩ ∈ visits listed term other := by
  rw [← List.nil_append env, visits_append] at visited
  obtain ⟨before, isVisit, rfl⟩ := List.mem_map.1 visited
  refine ⟨before.env, by simp [Visit.onto], fun other => ?_⟩
  rw [← List.nil_append other, visits_append]
  exact List.mem_map.2 ⟨before, isVisit, by simp [Visit.onto]⟩

/-- An environment tells of no nodes but those of the term that is read. -/
theorem mem_refs_of_visit (visited : visit ∈ visits listed term []) {name : String}
    (found : visit.env.lookup name = some declaration) : declaration ∈ term.refs := by
  have all : ∀ binding ∈ visit.env, binding.2 ∈ term.refs :=
    (@reading_invariant listed term [] (fun env => ∀ binding ∈ env, binding.2 ∈ term.refs)
    (List.forall_mem_nil _) fun part inside name _ env all =>
    List.forall_mem_cons.2 ⟨mem_refs.2 ⟨part, inside, rfl⟩, all⟩).2 visit visited
  obtain ⟨front, back, same, -⟩ := List.lookup_eq_some_iff.1 found
  exact all (name, declaration) (same ▸ List.mem_append_right _ (.head _))

/-- Outside of a loop, and in front of it, nothing is bound to a node of the loop. -/
theorem not_mem_refs_of_loop {loop : Outline} (once : whole.refs.Nodup) (real : none ∉ whole.refs)
    (inPlace : whole.All InPlace)
    (within : loop ∈ whole.subterms)
    (isLoop : (∃ declaration initializers condition steps body, loop.kind
      = .forLoop declaration initializers condition steps body) ∨
      ∃ type name collection body, loop.kind = .forEach type name collection body)
    (visited : visit ∈ visits false whole [])
    (outside : visit.part ∈ loop.subterms → visit.part = loop) {name : String}
    (found : visit.env.lookup name = some declaration) : declaration ∉ loop.refs := by
  have isStatement : loop.kind.sort = .statement ∧ loop.declarators = [] := by
    rcases loop with ⟨place, form⟩
    rcases isLoop with ⟨_, _, _, _, _, form⟩ | ⟨_, _, _, _, form⟩ <;> obtain rfl :=
      (form : _ = _) <;> exact ⟨rfl, rfl⟩
  -- With another statement in the place of the loop the same is bound, and nothing of the loop can
  -- be.
  let nothing : Outline := .node ⟨none, loop.note.span⟩ (.returnStmt none)
  have substitutes : Substitutes nothing loop := by
    refine ⟨by rw [isStatement.1]; simp, ⟨isStatement.2, rfl⟩, fun listed env => ?_⟩
    rw [environment_of_loop (inPlace.subterm within) isLoop, environment_node]
    rfl
  have elsewhere := visit_swap substitutes inPlace
    (fun part inside => subterm_unique once inside within) outside visited
  rcases (mem_refs_swap once within).1 (mem_refs_of_visit elsewhere found)
    with ⟨-, apart⟩ | inNothing
  · exact apart
  · have isNone : declaration = none := by simpa [nothing] using inNothing
    exact absurd (isNone ▸ mem_refs_of_visit visited found) real

/-- A part of an expression outside of the lambdas in it. -/
inductive Exposed (part : Outline) : Outline → Prop
  /-- The expression itself. -/
  | here : Exposed part part
  /-- A part of a child. -/
  | child {term child : Outline} (closed : term.kind.opensScope = false)
      (held : child ∈ term.children)
      (exposed : Exposed part child) : Exposed part term

theorem Exposed.trans {inner : Outline} (outer : Exposed part term)
    (exposed : Exposed inner part) : Exposed inner term := by
  induction outer with
  | here => exact exposed
  | child closed held _ ih => exact .child closed held ih

theorem Exposed.of_child {child : Outline} (closed : term.kind.opensScope = false)
    (held : child ∈ term.children) :
    Exposed child term := .child closed held .here

theorem Exposed.mem_subterms (exposed : Exposed part term) : part ∈ term.subterms := by
  induction exposed with
  | here => exact self_mem_subterms _
  | child _ held _ ih => exact mem_subterms_of_child held ih

/-- A child of an expression that is no lambda is an expression or an argument and is read in the
environment of the expression. -/
theorem visit_child {child : Outline} (inPlace : term.All InPlace)
    (sort : term.kind.sort ∈ [NodeSort.expression, .argument])
    (closed : term.kind.opensScope = false) (held : child ∈ term.children)
    (visited : ⟨term, listed, env⟩ ∈ visits outerListed whole outerEnv) :
    child.kind.sort ∈ [NodeSort.expression, .argument] ∧
    ⟨child, false, env⟩ ∈ visits outerListed whole outerEnv := by
  rcases term with ⟨place, form⟩
  obtain ⟨position, isChild⟩ := exists_position held
  obtain ⟨sorts, isSorts, sortChild⟩ := inPlace.here.sort_mem isChild
  have among : ∀ sorts ∈ form.childSorts, sorts = [NodeSort.expression] ∨
      sorts = [NodeSort.argument] := by
    change form.sort ∈ _ at sort
    change form.opensScope = false at closed
    cases form <;>
      first | (cases closed; done) | (simp [Kind.sort] at sort; done) | simp [Kind.childSorts]
  have sortChild : child.kind.sort ∈ [NodeSort.expression, .argument] := by
    rcases among sorts (List.mem_of_getElem? isSorts) with rfl | rfl
    · exact List.mem_cons.2 (.inl (List.mem_singleton.1 sortChild))
    · exact .tail _ sortChild
  refine ⟨sortChild, visits_trans visited ?_⟩
  have noInner : innerSteps place.ref form = [] := by
    change form.sort ∈ _ at sort
    change form.opensScope = false at closed
    cases form <;> first | (cases closed; done) | (simp [Kind.sort] at sort; done) | rfl
  have noType : child.kind.sort ∉ [NodeSort.type, .param] := by
    rcases List.mem_pair.1 sortChild with same | same <;> simp [same]
  obtain ⟨listed', outer | inner⟩ := exists_read_of_child inPlace.here held noType listed
  · obtain ⟨before, after, same⟩ := List.append_of_mem outer
    have unchanged : environmentAfter before env = env :=
      environmentAfter_of_reads fun step member => by
      obtain ⟨part, isPart, sortPart, rfl⟩ := exists_read_of_sort inPlace.here sort
        (same ▸ List.mem_append_left _ member : step ∈ outerSteps listed place.ref form)
      exact ⟨part, rfl, fun env => environment_of_sort (inPlace.child isPart) sortPart⟩
    obtain ⟨_, -, -, isRead⟩ := exists_read_of_sort inPlace.here sort outer
    cases isRead
    refine visitsOf_outerSteps_subset listed place form env ?_
    rw [same]
    refine visits_subset before after false child env ?_
    rw [unchanged]
    exact visit_self _ _ _
  · rw [noInner] at inner
    cases inner

/-- A part of an expression outside of the lambdas in it is an expression or an argument and is read
in the environment of the expression. -/
theorem Exposed.visited (exposed : Exposed part term) (inPlace : term.All InPlace)
    (sort : term.kind.sort ∈ [NodeSort.expression, .argument])
    (visited : ⟨term, false, env⟩ ∈ visits outerListed whole outerEnv) :
    part.kind.sort ∈ [NodeSort.expression, .argument] ∧
    ⟨part, false, env⟩ ∈ visits outerListed whole outerEnv := by
  induction exposed with
  | here => exact ⟨sort, visited⟩
  | child closed held _ ih =>
    obtain ⟨sortChild, visitedChild⟩ := visit_child inPlace sort closed held visited
    exact ih (inPlace.child held) sortChild visitedChild

/-- A name in a part of an expression outside of the lambdas in it is read in what the part adds to
the environment of the expression, and in front of another environment the part adds the same. -/
theorem Exposed.exists_visits {inner : Outline} {name : String} (exposed : Exposed part term)
    (inPlace : term.All InPlace) (sort : term.kind.sort ∈ [NodeSort.expression, .argument])
    (visited : ⟨term, false, env⟩ ∈ visits outerListed whole outerEnv)
    (inside : inner ∈ part.subterms)
    (isName : inner.kind = .ident name) : ∃ (front : Environment) (listed : Bool),
      ⟨inner, listed, front ++ env⟩ ∈ visits outerListed whole outerEnv ∧
        ∀ other, ⟨inner, listed, front ++ other⟩ ∈ visits false part other := by
  obtain ⟨-, visitedPart⟩ := exposed.visited inPlace sort visited
  obtain ⟨listed, env', visitedInner⟩ := exists_visit (inPlace.subterm exposed.mem_subterms) inside
    (by rw [isName]; simp [Kind.sort]) false env
  obtain ⟨front, same, elsewhere⟩ := exists_visits_of_visit visitedInner
  exact ⟨front, listed, visits_trans visitedPart (elsewhere env), elsewhere⟩

end

end Term

open Term in
/-- What a name refers to is in the program. -/
theorem Tree.IsUnit.mem_refs_of_declarationOf {whole : Outline} (unit : tree.IsUnit whole)
    (refers : (Model.build tree).declarationOf ref = some declaration) :
    declaration ∈ whole.refs := by
  obtain ⟨symbol, isSymbol, -⟩ := unit.exists_symbol_of_declarationOf refers
  obtain ⟨part, within, rfl, name, isName⟩ :=
    unit.toIsProgram.exists_ident_of_symbolOf (Option.isSome_iff_exists.2 ⟨symbol, isSymbol⟩)
  obtain ⟨listed, env, visited⟩ :=
    exists_visit unit.inPlace within (by rw [isName]; simp [Kind.sort]) false []
  exact mem_refs_of_visit visited ((unit.declarationOf_of_visit visited isName).symm.trans refers)

end Refactory
