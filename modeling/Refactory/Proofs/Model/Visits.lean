import Refactory.Proofs.Term.Sorts
import Refactory.Proofs.Tree.Replacing

/-!
# Reading programs

What the names of a program mean is said here without a model. A program is read once, from the left
to the right; an environment tells of each name which node declares it, and every part is visited in
the environment that holds in front of it (`Term.visits`). How the children of a node are read is a
matter of its kind (`Kind.outerTasks`, `Kind.innerTasks`): what is bound inside a scope is forgotten
after it.

Expressions bind nothing (`Term.environment_of_sort`), a name that a part does not declare means the
same throughout the part (`Term.lookup_of_visit`), and every part in which names mean something is
visited (`Term.exists_visit`).
-/
namespace Refactory

/-- For each name the node that declares it, the latest first. -/
abbrev Environment := List (String × Ref)

/-- A task in reading a node; positions are child positions. -/
inductive Task where
  /-- The names of the parameters in a position are bound. -/
  | params (position : Nat)
  /-- The names that the statements in a position declare are bound. -/
  | locals (position : Nat)
  /-- The name of the node itself is bound. -/
  | own
  /-- The children in a position are read, which may have their names bound before. -/
  | read (listed : Bool) (position : Nat)

namespace Kind

variable {one many one' many' : Type}

/-- The tasks at a node whose bindings stay, where the names that it declares may be bound
before. -/
def outerTasks (listed : Bool) : Kind one many → List Task
  | .unit _ => [.locals 0, .read true 0]
  | .localDecl _ _ => [.read listed 1]
  | .declarator _ _ => if listed then [.read false 0] else [.read false 0, .own]
  | .forEach _ _ _ _ => [.read false 1]
  | .method _ _ _ _ | .param _ _ | .typeRef _ _ _ | .block _ | .forLoop _ _ _ _ _ | .lambda _ _ _ =>
    []
  | .ifStmt _ _ _ => [.read false 0, .read false 1, .read false 2]
  | .whileLoop _ _ | .invoke _ _ | .index _ _ | .binary _ _ _ | .assign _ _ _ =>
    [.read false 0, .read false 1]
  | .exprStmt _ | .returnStmt _ | .member _ _ _ | .argument _ _ | .unary _ _ | .paren _ =>
    [.read false 0]
  | .int _ | .str _ | .bool _ | .null | .ident _ => []

/-- The tasks in the scope of a node, whose bindings are forgotten after it. -/
def innerTasks : Kind one many → List Task
  | .method _ _ _ _ => [.params 1, .read false 2]
  | .block _ => [.locals 0, .read true 0]
  | .forLoop _ _ _ _ _ =>
    [.read false 0, .read false 1, .read false 2, .read false 3, .read false 4]
  | .forEach _ _ _ _ => [.own, .read false 2]
  | .lambda _ _ _ => [.params 0, .read false 1]
  | _ => []

theorem outerTasks_of_skeleton {kind : Kind one many} {other : Kind one' many'}
    (same : kind.skeleton = other.skeleton)
    (listed : Bool) : kind.outerTasks listed = other.outerTasks listed :=
  eq_of_skeleton (fun kind => kind.outerTasks listed) (fun kind => by cases kind <;> rfl) same

theorem innerTasks_of_skeleton {kind : Kind one many} {other : Kind one' many'}
    (same : kind.skeleton = other.skeleton) : kind.innerTasks = other.innerTasks :=
  eq_of_skeleton (fun kind => kind.innerTasks) (fun kind => by cases kind <;> rfl) same

end Kind

namespace Term

/-- A step in reading a node. -/
inductive Step where
  /-- A name is bound to the node that declares it. -/
  | bind (name : String) (declaration : Ref)
  /-- A part is read, which may have its names bound before. -/
  | read (listed : Bool) (part : Outline)

/-- A part with the environment in front of it. -/
structure Visit where
  /-- The part. -/
  part : Outline
  /-- Whether its names are bound before. -/
  listed : Bool
  /-- The environment. -/
  env : Environment

/-- The children in a position. -/
def termsAt (form : Form Place) (position : Nat) : List Outline :=
    form.slots[position]?.toList.flatMap Slot.terms

/-- Terms that declare names bind them. -/
def bindings (terms : List Outline) : List Step :=
  terms.filterMap fun term => term.kind.declaredName?.map (.bind · term.ref)

/-- The steps of a task. -/
def stepsOf (ref : Ref) (form : Form Place) : Task → List Step
  | .params position => bindings (termsAt form position)
  | .locals position => bindings ((termsAt form position).flatMap declarators)
  | .own => form.declaredName?.toList.map (.bind · ref)
  | .read listed position => (termsAt form position).map (.read listed)

/-- The steps whose bindings stay. -/
def outerSteps (listed : Bool) (ref : Ref) (form : Form Place) : List Step :=
  (form.outerTasks listed).flatMap (stepsOf ref form)

/-- The steps whose bindings are forgotten. -/
def innerSteps (ref : Ref) (form : Form Place) : List Step :=
    form.innerTasks.flatMap (stepsOf ref form)

/-- Follows steps with a way to read parts, which gives the environment after them and the
visits. -/
def follow (visit : Bool → Outline → Environment → Environment × List Visit) :
    List Step → Environment → Environment × List Visit
  | [], env => (env, [])
  | .bind name declaration :: steps, env => follow visit steps ((name, declaration) :: env)
  | .read listed part :: steps, env =>
    let read := visit listed part env
    let others := follow visit steps read.1
    (others.1, read.2 ++ others.2)

theorem mem_termsAt {form : Form Place} {position : Nat} {child : Outline}
    (member : child ∈ termsAt form position) :
    child ∈ parts form := by
  obtain ⟨slot, found, inside⟩ := List.mem_flatMap.1 member
  exact mem_parts.2 ⟨slot, List.mem_of_getElem? (Option.mem_toList.1 found), inside⟩

/-- Only children are read. -/
theorem mem_parts_of_step {ref : Ref} {form : Form Place} {tasks : List Task} {listed : Bool}
    {part : Outline}
    (member : Step.read listed part ∈ tasks.flatMap (stepsOf ref form)) : part ∈ parts form := by
  obtain ⟨task, -, inside⟩ := List.mem_flatMap.1 member
  cases task with
  | params position | locals position =>
    obtain ⟨term, -, same⟩ := List.mem_filterMap.1 inside
    obtain ⟨name, -, same⟩ := Option.map_eq_some_iff.1 same
    cases same
  | own =>
    obtain ⟨name, -, same⟩ := List.mem_map.1 inside
    cases same
  | read listed position =>
    obtain ⟨term, held, same⟩ := List.mem_map.1 inside
    cases same
    exact mem_termsAt held

/-- Reading a term in an environment gives the environment after it and the visits to its parts. -/
def reading (listed : Bool) (term : Outline) (env : Environment) : Environment × List Visit :=
  let visit (listed : Bool) (part : Outline) (env : Environment) : Environment × List Visit :=
    if part.subterms.length < term.subterms.length then reading listed part env else (env, [])
  let around := follow visit (outerSteps listed term.ref term.kind) env
  let inside := follow visit (innerSteps term.ref term.kind) around.1
  (around.1, ⟨term, listed, env⟩ :: (around.2 ++ inside.2))
termination_by term.subterms.length

/-- The environment after a term. -/
def environment (listed : Bool) (term : Outline) (env : Environment) : Environment :=
    (reading listed term env).1

/-- The visits to the parts of a term, each before those to the parts below it. -/
def visits (listed : Bool) (term : Outline) (env : Environment) : List Visit :=
    (reading listed term env).2

/-- The environment after some steps. -/
def environmentAfter (steps : List Step) (env : Environment) : Environment :=
    (follow reading steps env).1

/-- The visits of some steps. -/
def visitsOf (steps : List Step) (env : Environment) : List Visit := (follow reading steps env).2

theorem follow_congr {visit other : Bool → Outline → Environment → Environment × List Visit}
    {steps : List Step}
    (same : ∀ listed part, Step.read listed part ∈ steps → visit listed part = other listed part)
    (env : Environment) :
    follow visit steps env = follow other steps env := by
  induction steps generalizing env with
  | nil => rfl
  | cons step steps ih =>
    have ih := ih fun listed part member => same listed part (.tail _ member)
    cases step with
    | bind name declaration => exact ih _
    | read listed part =>
      rw [follow, follow, same listed part (.head _)]
      simp only [ih]

/-- Reading a node is following its steps. -/
theorem reading_node (listed : Bool) (place : Place) (form : Form Place) (env : Environment) :
    reading listed (node place form) env =
      (environmentAfter (outerSteps listed place.ref form) env, ⟨node place form, listed, env⟩ ::
        (visitsOf (outerSteps listed place.ref form) env ++ visitsOf (innerSteps place.ref form)
            (environmentAfter (outerSteps listed place.ref form) env))) := by
  have same {tasks : List Task} (env : Environment) : follow (fun listed part env =>
      if part.subterms.length < (node place form).subterms.length then reading listed part env
        else (env, []))
      (tasks.flatMap (stepsOf place.ref form)) env =
      follow reading (tasks.flatMap (stepsOf place.ref form)) env := by
    refine follow_congr (fun listed part member => funext fun env => ?_) env
    have smaller : part.subterms.length < (node place form).subterms.length :=
      Tree.length_subterms_lt (mem_parts_of_step member)
    exact if_pos smaller
  rw [reading]
  simp only [ref_node, kind, outerSteps, innerSteps, same]
  rfl

theorem environment_node (listed : Bool) (place : Place) (form : Form Place) (env : Environment) :
    environment listed (node place form) env =
    environmentAfter (outerSteps listed place.ref form) env := by
  rw [environment, reading_node]

theorem visits_node (listed : Bool) (place : Place) (form : Form Place) (env : Environment) :
    visits listed (node place form) env = ⟨node place form, listed, env⟩ ::
      (visitsOf (outerSteps listed place.ref form) env ++ visitsOf (innerSteps place.ref form)
          (environmentAfter (outerSteps listed place.ref form) env)) := by
  rw [visits, reading_node]

@[simp] theorem environmentAfter_nil (env : Environment) : environmentAfter [] env = env := rfl

@[simp] theorem environmentAfter_bind (name : String) (declaration : Ref) (steps : List Step)
    (env : Environment) :
    environmentAfter (.bind name declaration :: steps) env =
    environmentAfter steps ((name, declaration) :: env) := rfl

@[simp] theorem environmentAfter_read (listed : Bool) (part : Outline) (steps : List Step)
    (env : Environment) :
    environmentAfter (.read listed part :: steps) env =
    environmentAfter steps (environment listed part env) := rfl

@[simp] theorem visitsOf_nil (env : Environment) : visitsOf [] env = [] := rfl

@[simp] theorem visitsOf_bind (name : String) (declaration : Ref) (steps : List Step)
    (env : Environment) :
    visitsOf (.bind name declaration :: steps) env = visitsOf steps ((name, declaration) :: env) :=
    rfl

@[simp] theorem visitsOf_read (listed : Bool) (part : Outline) (steps : List Step)
    (env : Environment) :
    visitsOf (.read listed part :: steps) env =
    visits listed part env ++ visitsOf steps (environment listed part env) :=
  rfl

theorem environmentAfter_append (first second : List Step) (env : Environment) :
    environmentAfter (first ++ second) env =
    environmentAfter second (environmentAfter first env) := by
  induction first generalizing env with
  | nil => rfl
  | cons step first ih => cases step <;> exact ih _

theorem visitsOf_append (first second : List Step) (env : Environment) :
    visitsOf (first ++ second) env =
    visitsOf first env ++ visitsOf second (environmentAfter first env) := by
  induction first generalizing env with
  | nil => rfl
  | cons step first ih =>
    cases step with
    | bind => exact ih _
    | read listed part =>
      rw [List.cons_append, visitsOf_read, visitsOf_read, ih, List.append_assoc]
      rfl

/-- A term is visited in the environment in front of it. -/
theorem visit_self (listed : Bool) (term : Outline)
    (env : Environment) : ⟨term, listed, env⟩ ∈ visits listed term env := by
  rcases term with ⟨place, form⟩
  rw [visits_node]
  exact .head _

/-- Binding names visits nothing. -/
theorem visitsOf_bindings (terms : List Outline) (steps : List Step) (env : Environment) :
    visitsOf (bindings terms ++ steps) env =
    visitsOf steps (environmentAfter (bindings terms) env) := by
  rw [visitsOf_append]
  suffices none : ∀ env, visitsOf (bindings terms) env = [] by rw [none, List.nil_append]
  induction terms with
  | nil => exact fun _ => rfl
  | cons term terms ih =>
    intro env
    rw [bindings, List.filterMap_cons]
    split
    · exact ih env
    · rename_i found
      obtain ⟨name, -, rfl⟩ := Option.map_eq_some_iff.1 found
      exact ih _

section

variable {listed : Bool} {part term whole : Outline} {steps : List Step} {env : Environment}
  {visit : Visit} {name : String}

/-- What is visited in some steps is visited in the part that one of them reads. -/
theorem exists_read_of_visit (visited : visit ∈ visitsOf steps env) : ∃ front listed part back,
    steps = front ++ Step.read listed part :: back ∧
    visit ∈ visits listed part (environmentAfter front env) := by
  induction steps generalizing env with
  | nil => cases visited
  | cons step steps ih =>
    cases step with
    | bind name declaration =>
      obtain ⟨front, listed, part, back, rfl, inside⟩ := ih visited
      exact ⟨.bind name declaration :: front, listed, part, back, rfl, inside⟩
    | read listed part =>
      rcases List.mem_append.1 visited with here | visited
      · exact ⟨[], listed, part, steps, rfl, here⟩
      · obtain ⟨front, listed', part', back, rfl, inside⟩ := ih visited
        exact ⟨.read listed part :: front, listed', part', back, rfl, inside⟩

/-- The visits in a part are visits in the steps that read it. -/
theorem visits_subset (front back : List Step) (listed : Bool) (part : Outline)
    (env : Environment) :
    visits listed part (environmentAfter front env) ⊆
    visitsOf (front ++ Step.read listed part :: back) env := by
  rw [visitsOf_append, visitsOf_read]
  exact fun visit inside => List.mem_append_right _ (List.mem_append_left _ inside)

/-- A part that is read is visited. -/
theorem exists_visits_subset (reads : Step.read listed part ∈ steps) (env : Environment) :
    ∃ env', visits listed part env' ⊆ visitsOf steps env := by
  obtain ⟨front, back, rfl⟩ := List.append_of_mem reads
  exact ⟨_, visits_subset front back listed part env⟩

/-- A visit is one to the term or to what is visited in one of its children, read in one of the two
scopes. -/
theorem visit_cases {place : Place} {form : Form Place}
    (visited : visit ∈ visits listed (node place form) env) :
    visit = ⟨node place form, listed, env⟩ ∨
    visit ∈ visitsOf (outerSteps listed place.ref form) env ∨ visit ∈ visitsOf
      (innerSteps place.ref form) (environmentAfter (outerSteps listed place.ref form) env) := by
  rw [visits_node, List.mem_cons, List.mem_append] at visited
  exact visited

theorem visitsOf_outerSteps_subset (listed : Bool) (place : Place) (form : Form Place)
    (env : Environment) :
    visitsOf (outerSteps listed place.ref form) env ⊆ visits listed (node place form) env := by
  rw [visits_node]
  exact fun visit inside => .tail _ (List.mem_append_left _ inside)

theorem visitsOf_innerSteps_subset (listed : Bool) (place : Place) (form : Form Place)
    (env : Environment) :
    visitsOf (innerSteps place.ref form) (environmentAfter (outerSteps listed place.ref form) env) ⊆
      visits listed (node place form) env := by
  rw [visits_node]
  exact fun visit inside => .tail _ (List.mem_append_right _ inside)

/-- What is visited while a visited part is read is visited. -/
theorem visits_trans (visited : visit ∈ visits listed term env) :
    visits visit.listed visit.part visit.env ⊆ visits listed term env := by
  induction term using Term.induction generalizing listed env with
  | step place form ih =>
    have within {tasks : List Task} {env : Environment}
        (visited : visit ∈ visitsOf (tasks.flatMap (stepsOf place.ref form)) env) :
        visits visit.listed visit.part visit.env ⊆
          visitsOf (tasks.flatMap (stepsOf place.ref form)) env := by
      obtain ⟨front, listed, child, back, same, inside⟩ := exists_read_of_visit visited
      have held : child ∈ parts form := mem_parts_of_step (same ▸ List.mem_append_right _ (.head _))
      rw [same]
      exact List.Subset.trans (ih child held inside) (visits_subset front back listed child _)
    rcases visit_cases visited with rfl | outer | inner
    · exact List.Subset.refl _
    · exact List.Subset.trans (within outer) (visitsOf_outerSteps_subset listed place form env)
    · exact List.Subset.trans (within inner) (visitsOf_innerSteps_subset listed place form env)

/-- Only parts are visited. -/
theorem part_of_visit (visited : visit ∈ visits listed term env) : visit.part ∈ term.subterms := by
  induction term using Term.induction generalizing listed env with
  | step place form ih =>
    have within {tasks : List Task} {env : Environment}
        (visited : visit ∈ visitsOf (tasks.flatMap (stepsOf place.ref form)) env) :
        visit.part ∈ (node place form).subterms := by
      obtain ⟨front, listed, child, back, same, inside⟩ := exists_read_of_visit visited
      have held : child ∈ parts form := mem_parts_of_step (same ▸ List.mem_append_right _ (.head _))
      exact mem_subterms_of_child held (ih child held inside)
    rcases visit_cases visited with rfl | outer | inner
    · exact self_mem_subterms _
    · exact within outer
    · exact within inner

theorem declarators_subset (statement : Outline) : statement.declarators ⊆ statement.children := by
  rcases statement with ⟨place, form⟩
  cases form
  case localDecl type locals =>
    intro declarator held
    replace held : declarator ∈ locals := held
    simp [children, kind, parts, held]
  all_goals exact List.nil_subset _

/-- A name is bound to the part that declares it. -/
theorem exists_part_of_bind {place : Place} {form : Form Place} {tasks : List Task}
    {declaration : Ref}
    (binds : Step.bind name declaration ∈ tasks.flatMap (stepsOf place.ref form)) :
    ∃ part ∈ (node place form).subterms, part.ref = declaration ∧
    part.kind.declaredName? = some name := by
  obtain ⟨task, -, inside⟩ := List.mem_flatMap.1 binds
  have of_terms {terms : List Outline} (within : terms ⊆ (node place form).subterms)
      (binds : Step.bind name declaration ∈ bindings terms) :
      ∃ part ∈ (node place form).subterms, part.ref = declaration ∧
        part.kind.declaredName? = some name := by
    obtain ⟨term, held, same⟩ := List.mem_filterMap.1 binds
    obtain ⟨other, declares, same⟩ := Option.map_eq_some_iff.1 same
    cases same
    exact ⟨term, within held, rfl, declares⟩
  cases task with
  | params position =>
    exact of_terms (fun child held => child_mem_subterms (mem_termsAt held)) inside
  | locals position =>
    refine of_terms (fun declarator held => ?_) inside
    obtain ⟨statement, isChild, held⟩ := List.mem_flatMap.1 held
    exact mem_subterms_of_child (mem_termsAt isChild)
      (child_mem_subterms (declarators_subset statement held))
  | own =>
    obtain ⟨other, declares, same⟩ := List.mem_map.1 inside
    cases same
    exact ⟨_, self_mem_subterms _, rfl, Option.mem_toList.1 declares⟩
  | read listed position =>
    obtain ⟨term, -, same⟩ := List.mem_map.1 inside
    cases same

/-- What steps leave as they find it holds of every part that they read and after them. -/
theorem follow_invariant {property : Environment → Prop} {env : Environment} (here : property env)
    (binds : ∀ name declaration, Step.bind name declaration ∈ steps → ∀ env, property env →
      property ((name, declaration) :: env))
    (reads : ∀ listed part, Step.read listed part ∈ steps → ∀ env, property env →
      property (environment listed part env) ∧
        ∀ visit ∈ visits listed part env, property visit.env) :
    property (environmentAfter steps env) ∧ ∀ visit ∈ visitsOf steps env, property visit.env := by
  induction steps generalizing env with
  | nil => exact ⟨here, fun _ visited => absurd visited List.not_mem_nil⟩
  | cons step steps ih =>
    have ih {env : Environment} (here : property env) :=
      ih here (fun name declaration member => binds name declaration (.tail _ member))
      fun listed part member => reads listed part (.tail _ member)
    cases step with
    | bind name declaration => exact ih (binds name declaration (.head _) env here)
    | read listed part =>
      obtain ⟨after, inside⟩ := reads listed part (.head _) env here
      obtain ⟨afterwards, others⟩ := ih after
      exact ⟨afterwards, fun visit visited =>
        (List.mem_append.1 visited).elim (inside visit) (others visit)⟩

/-- What holds of an environment in front of a term, and is not changed where a part of the term is
bound, holds in front of every part and after the term. -/
theorem reading_invariant {property : Environment → Prop} (here : property env)
    (binds : ∀ part ∈ term.subterms, ∀ name, part.kind.declaredName? = some name →
      ∀ env, property env → property ((name, part.ref) :: env)) :
    property (environment listed term env) ∧
    ∀ visit ∈ visits listed term env, property visit.env := by
  induction term using Term.induction generalizing listed env with
  | step place form ih =>
    have within (tasks : List Task) {env : Environment} (here : property env) :
        property (environmentAfter (tasks.flatMap (stepsOf place.ref form)) env) ∧
          ∀ visit ∈ visitsOf (tasks.flatMap (stepsOf place.ref form)) env, property visit.env := by
      refine follow_invariant here (fun name declaration member env here => ?_)
        fun listed part member env here => ?_
      · obtain ⟨part, inside, rfl, declares⟩ := exists_part_of_bind member
        exact binds part inside name declares env here
      · have held := mem_parts_of_step member
        exact ih part held here fun inner inside => binds inner (mem_subterms_of_child held inside)
    obtain ⟨after, outer⟩ := within (form.outerTasks listed) here
    obtain ⟨-, inner⟩ := within form.innerTasks after
    rw [environment_node]
    refine ⟨after, fun visit visited => ?_⟩
    rcases visit_cases visited with rfl | visited | visited
    · exact here
    · exact outer visit visited
    · exact inner visit visited

/-- A name that a term does not declare means the same in front of every part of the term. -/
theorem lookup_of_visit (undeclared : ∀ part ∈ term.subterms, part.kind.declaredName? ≠ some name)
    (visited : visit ∈ visits listed term env) : visit.env.lookup name = env.lookup name := by
  refine (@reading_invariant listed term env (fun env' => env'.lookup name = env.lookup name) rfl
    fun part inside other declares env' same => ?_).2 visit visited
  have differ : (name == other) = false :=
    beq_false_of_ne fun same => undeclared part inside (same ▸ declares)
  rwa [List.lookup_cons, differ]

/-- A child in a position is of one of the sorts for the position. -/
theorem InPlace.sort_mem {place : Place} {form : Form Place}
    {position : Nat} (inPlace : InPlace (node place form)) (held : part ∈ termsAt form position) :
    ∃ sorts, form.childSorts[position]? = some sorts ∧ part.kind.sort ∈ sorts := by
  obtain ⟨slot, isSlot, held⟩ := List.mem_flatMap.1 held
  obtain ⟨inside, rfl⟩ := List.getElem?_eq_some_iff.1 (Option.mem_toList.1 isSlot)
  have inSorts : position < form.childSorts.length := inPlace.sorts.length_eq ▸ inside
  exact ⟨_, List.getElem?_eq_getElem inSorts, inPlace.sorts.get inside inSorts part held⟩

theorem exists_position {form : Form Place}
    (held : part ∈ parts form) : ∃ position, part ∈ termsAt form position := by
  obtain ⟨slot, isSlot, held⟩ := mem_parts.1 held
  obtain ⟨position, inside, rfl⟩ := List.getElem_of_mem isSlot
  exact ⟨position,
    List.mem_flatMap.2 ⟨_, Option.mem_toList.2 (List.getElem?_eq_getElem inside), held⟩⟩

/-- Expressions and arguments read nothing but expressions and arguments outside of scopes. -/
theorem exists_read_of_sort {place : Place} {form : Form Place} {step : Step}
    (inPlace : InPlace (node place form)) (sort : form.sort ∈ [NodeSort.expression, .argument])
    (member : step ∈ outerSteps listed place.ref form) :
    ∃ part ∈ parts form, part.kind.sort ∈ [NodeSort.expression, .argument] ∧
    step = .read false part := by
  obtain ⟨task, isTask, inside⟩ := List.mem_flatMap.1 member
  have onlyRead : form.outerTasks listed ⊆ [.read false 0, .read false 1] := by
    cases form <;> first | (simp [Kind.sort] at sort; done) | simp [Kind.outerTasks]
  have sorts : ∀ sorts ∈ form.childSorts, form.outerTasks listed = [] ∨
      sorts ⊆ [NodeSort.expression, .argument] := by
    cases form <;>
      first | (simp [Kind.sort] at sort; done) | simp [Kind.outerTasks, Kind.childSorts]
  obtain ⟨position, rfl⟩ : ∃ position, task = .read false position := by
    have among := onlyRead isTask
    simp only [List.mem_cons, List.not_mem_nil, or_false] at among
    rcases among with rfl | rfl <;> exact ⟨_, rfl⟩
  obtain ⟨child, held, rfl⟩ := List.mem_map.1 inside
  obtain ⟨allowed, isAllowed, sortChild⟩ := inPlace.sort_mem held
  rcases sorts allowed (List.mem_of_getElem? isAllowed) with none | within
  · rw [none] at isTask
    cases isTask
  · exact ⟨child, mem_termsAt held, within sortChild, rfl⟩

/-- Steps that read what binds nothing bind nothing. -/
theorem environmentAfter_of_reads {steps : List Step}
    (each : ∀ step ∈ steps, ∃ part, step = .read false part ∧
    ∀ env, environment false part env = env) : environmentAfter steps env = env := by
  induction steps generalizing env with
  | nil => rfl
  | cons step steps ih =>
    obtain ⟨part, rfl, unchanged⟩ := each step (.head _)
    rw [environmentAfter_read, unchanged]
    exact ih fun other member => each other (.tail _ member)

/-- Expressions and arguments bind nothing. -/
theorem environment_of_sort (inPlace : term.All InPlace)
    (sort : term.kind.sort ∈ [NodeSort.expression, .argument]) :
    environment listed term env = env := by
  induction term using Term.induction generalizing listed env with
  | step place form ih =>
    rw [environment_node]
    refine environmentAfter_of_reads fun step member => ?_
    obtain ⟨part, held, sortPart, rfl⟩ := exists_read_of_sort inPlace.here sort member
    exact ⟨part, rfl, fun env => ih part held (inPlace.child held) sortPart⟩

/-- The children of a node are read unless they are types or parameters. -/
theorem exists_read_of_child {place : Place} {form : Form Place}
    (inPlace : InPlace (node place form))
    (held : part ∈ parts form) (sort : part.kind.sort ∉ [NodeSort.type, .param]) (listed : Bool) :
    ∃ listed', .read listed' part ∈ outerSteps listed place.ref form ∨
    .read listed' part ∈ innerSteps place.ref form := by
  obtain ⟨position, held⟩ := exists_position held
  obtain ⟨sorts, isSorts, sortPart⟩ := inPlace.sort_mem held
  have read : ∀ position sorts, form.childSorts[position]? = some sorts →
      sorts ⊆ [NodeSort.type, .param] ∨
      ∃ listed', .read listed' position ∈ form.outerTasks listed ∨
        .read listed' position ∈ form.innerTasks := by
    intro position sorts isSorts
    cases form <;> rcases position with _ | _ | _ | _ | _ | position <;> first
      | (cases isSorts; done)
      | (cases isSorts; left; simp; done)
      | (cases isSorts; right; cases listed <;> simp [Kind.outerTasks, Kind.innerTasks])
  rcases read position sorts isSorts with among | ⟨listed', outer | inner⟩
  · exact absurd (among sortPart) sort
  · exact ⟨listed', .inl (List.mem_flatMap.2 ⟨_, outer, List.mem_map_of_mem held⟩)⟩
  · exact ⟨listed', .inr (List.mem_flatMap.2 ⟨_, inner, List.mem_map_of_mem held⟩)⟩

/-- In types and parameters there are only types. -/
theorem sort_of_mem_subterms (inPlace : term.All InPlace)
    (sort : term.kind.sort ∈ [NodeSort.type, .param])
    (inside : part ∈ term.subterms) : part.kind.sort ∈ [NodeSort.type, .param] := by
  induction term using Term.induction with
  | step place form ih =>
    rw [subterms_node] at inside
    rcases List.mem_cons.1 inside with rfl | inside
    · exact sort
    · obtain ⟨child, held, inside⟩ := List.mem_flatMap.1 inside
      obtain ⟨position, isChild⟩ := exists_position held
      obtain ⟨sorts, isSorts, sortChild⟩ := inPlace.here.sort_mem isChild
      refine ih child held (inPlace.child held) ?_ inside
      rw [kind] at sort
      have onlyTypes : ∀ sorts ∈ form.childSorts, sorts = [NodeSort.type] := by
        cases form <;> first | (simp [Kind.sort] at sort; done) | simp [Kind.childSorts]
      rw [onlyTypes sorts (List.mem_of_getElem? isSorts)] at sortChild
      exact List.mem_cons.2 (.inl (List.mem_singleton.1 sortChild))

/-- Every part of a statement or an expression is visited, but types, parameters and what is inside
them. -/
theorem exists_visit (inPlace : term.All InPlace) (inside : part ∈ term.subterms)
    (sort : part.kind.sort ∉ [NodeSort.type, .param]) (listed : Bool) (env : Environment) :
    ∃ listed' env', ⟨part, listed', env'⟩ ∈ visits listed term env := by
  induction term using Term.induction generalizing listed env with
  | step place form ih =>
    rw [subterms_node] at inside
    rcases List.mem_cons.1 inside with rfl | inside
    · exact ⟨listed, env, visit_self _ _ _⟩
    · obtain ⟨child, held, inside⟩ := List.mem_flatMap.1 inside
      have sortChild : child.kind.sort ∉ [NodeSort.type, .param] := fun isType =>
        sort (sort_of_mem_subterms (inPlace.child held) isType inside)
      obtain ⟨listed', outer | inner⟩ := exists_read_of_child inPlace.here held sortChild listed
      · obtain ⟨env', subset⟩ := exists_visits_subset outer env
        obtain ⟨listed'', env'', visited⟩ := ih child held (inPlace.child held) inside listed' env'
        exact ⟨listed'', env'', visitsOf_outerSteps_subset listed place form env (subset visited)⟩
      · obtain ⟨env', subset⟩ :=
          exists_visits_subset inner (environmentAfter (outerSteps listed place.ref form) env)
        obtain ⟨listed'', env'', visited⟩ := ih child held (inPlace.child held) inside listed' env'
        exact ⟨listed'', env'', visitsOf_innerSteps_subset listed place form env (subset visited)⟩

/-- The body of a lambda of one parameter is read where the name of the parameter means the
parameter. -/
theorem visit_body {lambda param body : Outline} {type : Option Outline}
    {listed' parenthesized : Bool} {env' : Environment}
    (isLambda : lambda.kind = .lambda [param] (some body) parenthesized)
    (isParam : param.kind = .param type name)
    (visited : ⟨lambda, listed', env'⟩ ∈ visits listed term env) :
    ⟨body, false, (name, param.ref) :: env'⟩ ∈ visits listed term env := by
  rcases lambda with ⟨place, form⟩
  obtain rfl : form = _ := isLambda
  have bound : bindings [param] = [.bind name param.ref] := by
    simp [bindings, isParam, Kind.declaredName?]
  have steps : innerSteps place.ref (.lambda [param] (some body) parenthesized)
      = [.bind name param.ref, .read false body] := by
    simp [innerSteps, Kind.innerTasks, stepsOf, termsAt, bound]
  refine visits_trans visited (visitsOf_innerSteps_subset listed' place _ env' ?_)
  rw [steps]
  simp [outerSteps, Kind.outerTasks, visit_self]

/-- Reading expressions changes no environment. -/
theorem environmentAfter_of_expressions {terms : List Outline}
    (inPlace : ∀ term ∈ terms, term.All InPlace)
    (sort : ∀ term ∈ terms, term.kind.sort = .expression) :
    environmentAfter (terms.map (.read false)) env = env := by
  refine environmentAfter_of_reads fun step member => ?_
  obtain ⟨term, held, rfl⟩ := List.mem_map.1 member
  exact ⟨term, rfl, fun env =>
    environment_of_sort (inPlace term held) (List.mem_cons.2 (.inl (sort term held)))⟩

/-- Where children of one sort are wanted, they are of that sort. -/
theorem InPlace.sort_of_position {place : Place} {form : Form Place} {position : Nat}
    {sort : NodeSort}
    (inPlace : InPlace (node place form)) (wanted : form.childSorts[position]? = some [sort])
    (held : part ∈ termsAt form position) : part.kind.sort = sort := by
  obtain ⟨sorts, isSorts, among⟩ := inPlace.sort_mem held
  obtain rfl := Option.some.inj (wanted.symm.trans isSorts)
  exact List.mem_singleton.1 among

/-- Reading the child position of an expression changes no environment. -/
theorem environmentAfter_of_position {place : Place} {form : Form Place} {position : Nat}
    (inPlace : (node place form).All InPlace)
    (wanted : form.childSorts[position]? = some [.expression]) :
    environmentAfter ((termsAt form position).map (.read false)) env = env :=
  environmentAfter_of_expressions (fun _ held => inPlace.child (mem_termsAt held))
    fun _ held => inPlace.here.sort_of_position wanted held

/-- The body of a loop over elements is read where the name of the loop variable means the loop. -/
theorem visit_elements {loop body : Outline} {type collection : Option Outline} {listed' : Bool}
    {env' : Environment}
    (inPlace : loop.All InPlace) (isLoop : loop.kind = .forEach type name collection (some body))
    (visited : ⟨loop, listed', env'⟩ ∈ visits listed term env) :
    ⟨body, false, (name, loop.ref) :: env'⟩ ∈ visits listed term env := by
  rcases loop with ⟨place, form⟩
  obtain rfl : form = _ := isLoop
  have around : environmentAfter
      (outerSteps listed' place.ref (.forEach type name collection (some body))) env' = env' := by
    have unchanged := @environmentAfter_of_position env' _ _ 1 inPlace rfl
    simpa [outerSteps, Kind.outerTasks, stepsOf] using unchanged
  have steps : innerSteps place.ref (.forEach type name collection (some body))
      = [.bind name place.ref, .read false body] := by
    simp [innerSteps, Kind.innerTasks, stepsOf, termsAt, Kind.declaredName?]
  refine visits_trans visited (visitsOf_innerSteps_subset listed' place _ env' ?_)
  rw [around, steps]
  simp [visit_self]

/-- The collection of a loop over elements is read where the loop is. -/
theorem visit_collection {loop collection : Outline} {type body : Option Outline} {listed' : Bool}
    {env' : Environment} (isLoop : loop.kind = .forEach type name (some collection) body)
    (visited : ⟨loop, listed', env'⟩ ∈ visits listed term env) :
    ⟨collection, false, env'⟩ ∈ visits listed term env := by
  rcases loop with ⟨place, form⟩
  obtain rfl : form = _ := isLoop
  refine visits_trans visited (visitsOf_outerSteps_subset listed' place _ env' ?_)
  simp [outerSteps, Kind.outerTasks, stepsOf, termsAt, visit_self]

/-- The body of a counted loop is read where the name of the counter means its declarator. -/
theorem visit_counted {loop declaration declarator body : Outline}
    {initializers steps : List Outline} {condition type value : Option Outline} {listed' : Bool}
    {env' : Environment} (inPlace : loop.All InPlace)
    (isLoop : loop.kind = .forLoop (some declaration) initializers condition steps (some body))
    (isDeclaration : declaration.kind = .localDecl type [declarator])
    (isDeclarator : declarator.kind = .declarator name value)
    (visited : ⟨loop, listed', env'⟩ ∈ visits listed term env) :
    ⟨body, false, (name, declarator.ref) :: env'⟩ ∈ visits listed term env := by
  have declared : environment false declaration env' = (name, declarator.ref) :: env' := by
    have inPlaceDeclaration :=
      inPlace.child (by simp [children, isLoop, parts] : declaration ∈ loop.children)
    have inPlaceDeclarator := inPlaceDeclaration.child
      (by simp [children, isDeclaration, parts] : declarator ∈ declaration.children)
    rcases declaration with ⟨place, form⟩
    rcases declarator with ⟨declaratorPlace, declaratorForm⟩
    obtain rfl : form = _ := isDeclaration
    obtain rfl : declaratorForm = _ := isDeclarator
    have unchanged := @environmentAfter_of_position env' _ _ 0 inPlaceDeclarator rfl
    rw [environment_node]
    simp only [outerSteps, Kind.outerTasks, stepsOf, List.flatMap_cons, List.flatMap_nil,
      List.append_nil, termsAt]
    simp only [Kind.slots, List.getElem?_cons_succ, List.getElem?_cons_zero, Option.toList_some,
      List.flatMap_cons, Slot.terms, List.flatMap_nil, List.append_nil, List.map_cons, List.map_nil,
      environmentAfter_read, environmentAfter_nil]
    rw [environment_node]
    simp only [outerSteps, Kind.outerTasks, Bool.false_eq_true, if_false, List.flatMap_cons,
      List.flatMap_nil, List.append_nil, stepsOf, environmentAfter_append, unchanged]
    simp [Kind.declaredName?]
  rcases loop with ⟨place, form⟩
  obtain rfl : form = _ := isLoop
  have unchanged (position : Nat) (among : position ∈ [1, 2, 3])
      (env : Environment) : environmentAfter
      ((termsAt (.forLoop (some declaration) initializers condition steps (some body)) position).map
        (.read false)) env = env := by
    refine @environmentAfter_of_position env _ _ position inPlace ?_
    simp only [List.mem_cons, List.not_mem_nil, or_false] at among
    rcases among with rfl | rfl | rfl <;> rfl
  refine visits_trans visited (visitsOf_innerSteps_subset listed' place _ env' ?_)
  have around : environmentAfter
      (outerSteps listed' place.ref (.forLoop (some declaration) initializers condition steps
      (some body))) env' = env' := rfl
  rw [around]
  simp only [innerSteps, Kind.innerTasks, List.flatMap_cons, List.flatMap_nil,
    List.append_nil, stepsOf]
  rw [visitsOf_append, visitsOf_append, visitsOf_append, visitsOf_append]
  have first : environmentAfter
      ((termsAt (.forLoop (some declaration) initializers condition steps (some body)) 0).map
      (.read false)) env' = (name, declarator.ref) :: env' := by
    simpa [termsAt] using declared
  rw [first, unchanged 1 (by simp), unchanged 2 (by simp), unchanged 3 (by simp)]
  refine List.mem_append_right
    _ (List.mem_append_right _ (List.mem_append_right _ (List.mem_append_right _ ?_)))
  simp [termsAt, visit_self]

/-- Around a loop nothing is bound that the loop declares. -/
theorem environment_of_loop {loop : Outline} (inPlace : loop.All InPlace)
    (isLoop : (∃ declaration initializers condition steps body, loop.kind
      = .forLoop declaration initializers condition steps body) ∨
      ∃ type name collection body, loop.kind = .forEach type name collection body) :
      environment listed loop env = env := by
  rcases loop with ⟨place, form⟩
  rw [environment_node]
  rcases isLoop with ⟨_, _, _, _, _, form⟩ | ⟨type, name, collection, body, form⟩
  · obtain rfl := (form : _ = _)
    rfl
  · obtain rfl := (form : _ = _)
    have unchanged := @environmentAfter_of_position env _ _ 1 inPlace rfl
    simpa [outerSteps, Kind.outerTasks, stepsOf] using unchanged

end

/-- An environment after the nodes that declare names have moved. -/
def moveAll (moved : Ref → Ref) (env : Environment) : Environment :=
    env.map fun binding => (binding.1, moved binding.2)

/-- A step after the nodes that declare names have moved, with `f` of the part that it reads. -/
def Step.move (moved : Ref → Ref) (f : Outline → Outline) : Step → Step
  | .bind name declaration => .bind name (moved declaration)
  | .read listed part => .read listed (f part)

@[simp] theorem moveAll_cons (moved : Ref → Ref) (name : String) (declaration : Ref)
    (env : Environment) :
    moveAll moved ((name, declaration) :: env) = (name, moved declaration) :: moveAll moved env :=
    rfl

@[simp] theorem moveAll_id (env : Environment) : moveAll id env = env := List.map_id' env

/-- A name is found where it was found before, which may have moved. -/
theorem lookup_moveAll (moved : Ref → Ref) (env : Environment) (name : String) :
    (moveAll moved env).lookup name = (env.lookup name).map moved := by
  induction env with
  | nil => rfl
  | cons binding env ih =>
    obtain ⟨other, declaration⟩ := binding
    rw [moveAll_cons, List.lookup_cons, List.lookup_cons]
    cases name == other with
    | true => rfl
    | false => exact ih

/-- A term that can come in the place of another without changing what is bound around it. -/
structure Substitutes (new old : Outline) : Prop where
  /-- The other is neither a parameter nor a declarator. -/
  sort : old.kind.sort ∉ [NodeSort.param, .declarator]
  /-- Neither has declarators. -/
  declarators : old.declarators = [] ∧ new.declarators = []
  /-- After both the environment is the same. -/
  environment : ∀ listed env, environment listed new env = environment listed old env

/-- What comes in the place of parts changes nothing in what is bound around it but where it is
declared. -/
structure Exchanges (moved : Ref → Ref) (new old : Outline) : Prop where
  /-- The part is neither a parameter nor a declarator. -/
  sort : old.kind.sort ∉ [NodeSort.param, .declarator]
  /-- Neither has declarators. -/
  declarators : old.declarators = [] ∧ new.declarators = []
  /-- After both the environment is the same, but for what has moved. -/
  environment : ∀ listed env, environment listed new (moveAll moved env)
    = moveAll moved (environment listed old env)

/-- Only statements have declarators. -/
theorem declarators_of_sort {term : Outline}
    (sort : term.kind.sort ∈ [NodeSort.expression, .argument]) :
    term.declarators = [] := by
  rcases term with ⟨place, form⟩
  cases form <;> first | rfl | simp [kind, Kind.sort] at sort

/-- Expressions and arguments can come in the place of each other. -/
theorem Substitutes.of_sort {new old : Outline} (inPlace : old.All InPlace)
    (inPlaceNew : new.All InPlace) (sort : old.kind.sort ∈ [NodeSort.expression, .argument])
    (sortNew : new.kind.sort ∈ [NodeSort.expression, .argument]) :
    Substitutes new old := by
  refine ⟨?_, ⟨declarators_of_sort sort, declarators_of_sort sortNew⟩, fun listed env => ?_⟩
  · rcases List.mem_pair.1 sort with same | same <;> simp [same]
  · rw [environment_of_sort inPlaceNew sortNew, environment_of_sort inPlace sort]

/-- So they can when something around them has moved. -/
theorem Exchanges.of_sort {moved : Ref → Ref} {new old : Outline} (inPlace : old.All InPlace)
    (inPlaceNew : new.All InPlace) (sort : old.kind.sort ∈ [NodeSort.expression, .argument])
    (sortNew : new.kind.sort ∈ [NodeSort.expression, .argument]) :
    Exchanges moved new old := by
  refine ⟨?_, ⟨declarators_of_sort sort, declarators_of_sort sortNew⟩, fun listed env => ?_⟩
  · rcases List.mem_pair.1 sort with same | same <;> simp [same]
  · rw [environment_of_sort inPlaceNew sortNew, environment_of_sort inPlace sort]

theorem termsAt_mapChildren (f : Outline → Outline) (form : Form Place) (position : Nat) :
    termsAt (mapChildren f form) position = (termsAt form position).map f := by
  rw [termsAt, termsAt, slots_mapChildren, List.getElem?_map]
  cases form.slots[position]? with
  | none => rfl
  | some slot => simpa using terms_mapSlot f slot

/-- The parts whose names a scope binds as parameters are parameters. -/
theorem sort_of_params {listed : Bool} {place : Place} {form : Form Place}
    {tasks : List Task} {position : Nat} {part : Outline} (inPlace : InPlace (node place form))
    (among : tasks = form.outerTasks listed ∨ tasks = form.innerTasks)
    (isTask : Task.params position ∈ tasks) (held : part ∈ termsAt form position) :
    part.kind.sort = .param := by
  obtain ⟨sorts, isSorts, sort⟩ := inPlace.sort_mem held
  have only : form.childSorts[position]? = some [NodeSort.param] := by
    rcases among with rfl | rfl
    · cases form <;> simp [Kind.outerTasks] at isTask
      split at isTask <;> simp at isTask
    · cases form <;> simp [Kind.innerTasks] at isTask <;> subst isTask <;> rfl
  obtain rfl := Option.some.inj (only.symm.trans isSorts)
  exact List.mem_singleton.1 sort

theorem sort_of_declarators {statement part : Outline} (inPlace : InPlace statement)
    (held : part ∈ statement.declarators) :
    part.kind.sort = .declarator := by
  rcases statement with ⟨place, form⟩
  cases form
  case localDecl type locals =>
    replace held : part ∈ locals := held
    have held : part ∈ termsAt (.localDecl type locals) 1 := by simpa [termsAt] using held
    obtain ⟨sorts, isSorts, sort⟩ := inPlace.sort_mem held
    obtain rfl := Option.some.inj isSorts
    exact List.mem_singleton.1 sort
  all_goals cases held

section

variable {test : Ref → Bool} {value : Outline → Outline} {moved : Ref → Ref} {listed : Bool}
  {whole : Outline} {env : Environment}

theorem bindings_map {f : Outline → Outline} {terms : List Outline}
    (same : ∀ term ∈ terms, (f term).kind.declaredName? = term.kind.declaredName? ∧
      (f term).ref = moved term.ref) :
    bindings (terms.map f) = (bindings terms).map (Step.move moved f) := by
  rw [bindings, bindings, List.filterMap_map, List.map_filterMap]
  refine List.filterMap_congr fun term member => ?_
  obtain ⟨declares, place⟩ := same term member
  rw [Function.comp_apply, declares, place, Option.map_map]
  rfl

/-- The steps of a node that stays are the same when other terms come in the place of the parts
below. -/
theorem steps_replacing {place : Place} {form : Form Place} {tasks : List Task}
    (miss : test place.ref = false)
    (exchanges : ∀ part ∈ (node place form).topmost test, Exchanges moved (value part) part)
    (inPlace : (node place form).All InPlace)
    (among : tasks = form.outerTasks listed ∨ tasks = form.innerTasks) :
    tasks.flatMap (stepsOf (moved place.ref) (mapChildren (replacing test value moved) form)) =
      (tasks.flatMap (stepsOf place.ref form)).map
      (Step.move moved (replacing test value moved)) := by
  have unchanged {part : Outline} (stays : test part.ref = false) :
      (replacing test value moved part).kind.declaredName? = part.kind.declaredName? ∧
        (replacing test value moved part).ref = moved part.ref := by
    refine ⟨?_, ref_replacing stays⟩
    rw [kind_replacing stays]
    exact Kind.declaredName?_of_skeleton (skeleton_mapChildren _ _)
  have child {part : Outline} (held : part ∈ parts form) :
      ∀ inner ∈ part.topmost test, Exchanges moved (value inner) inner :=
    fun inner inside => exchanges inner (topmost_of_child miss held inside)
  -- Nothing that is bound is exchanged itself.
  have stays {part : Outline}
      (each : ∀ inner ∈ part.topmost test, Exchanges moved (value inner) inner)
      (sort : part.kind.sort ∈ [NodeSort.param, .declarator]) : test part.ref = false := by
    refine Bool.eq_false_iff.2 fun hit => (each part ?_).sort sort
    rw [topmost_of_hit hit]
    exact .head _
  have declarators (statement : Outline) (held : statement ∈ parts form) :
      (replacing test value moved statement).declarators =
      statement.declarators.map (replacing test value moved) := by
    cases hit : test statement.ref with
    | true =>
      have exchanged := child held statement (by rw [topmost_of_hit hit]; exact .head _)
      rw [replacing_of_hit hit, exchanged.declarators.1, exchanged.declarators.2, List.map_nil]
    | false =>
      rw [Term.declarators, Term.declarators, kind_replacing hit]
      cases statement.kind <;> rfl
  rw [List.map_flatMap]
  refine List.flatMap_congr fun task isTask => ?_
  cases task with
  | params position =>
    rw [stepsOf, stepsOf, termsAt_mapChildren]
    refine bindings_map fun part held => unchanged (stays (child (mem_termsAt held)) ?_)
    rw [sort_of_params inPlace.here among isTask held]
    exact .head _
  | locals position =>
    rw [stepsOf, stepsOf, termsAt_mapChildren, List.flatMap_map, ← bindings_map, List.map_flatMap]
    · rw [List.flatMap_congr fun statement held => declarators statement (mem_termsAt held)]
    · intro part held
      obtain ⟨statement, isChild, held⟩ := List.mem_flatMap.1 held
      have isChild := mem_termsAt isChild
      cases hit : test statement.ref with
      | true =>
        have exchanged := child isChild statement (by rw [topmost_of_hit hit]; exact .head _)
        rw [exchanged.declarators.1] at held
        cases held
      | false =>
        rcases statement with ⟨statementPlace, statementForm⟩
        refine unchanged
          (stays (fun inner inside => child isChild inner (topmost_of_child hit ?_ inside)) ?_)
        · exact declarators_subset _ held
        · rw [sort_of_declarators (inPlace.child isChild).here held]
          exact .tail _ (.head _)
  | own =>
    rw [stepsOf, stepsOf, Kind.declaredName?_of_skeleton (skeleton_mapChildren _ form),
      List.map_map]
    rfl
  | read listed position =>
    rw [stepsOf, stepsOf, termsAt_mapChildren, List.map_map, List.map_map]
    rfl

/-- Steps with `f` of the parts that they read leave the environment that they left, but for what
has moved, when `f` of each part does. -/
theorem environmentAfter_move {f : Outline → Outline} {steps : List Step}
    (same : ∀ listed part, Step.read listed part ∈ steps → ∀ env, environment listed (f part)
        (moveAll moved env) = moveAll moved (environment listed part env)) (env : Environment) :
    environmentAfter (steps.map (Step.move moved f)) (moveAll moved env) =
    moveAll moved (environmentAfter steps env) := by
  induction steps generalizing env with
  | nil => rfl
  | cons step steps ih =>
    have ih := ih fun listed part member => same listed part (.tail _ member)
    cases step with
    | bind name declaration => exact ih ((name, declaration) :: env)
    | read listed part =>
      rw [List.map_cons, Step.move, environmentAfter_read, environmentAfter_read,
        same listed part (.head _), ih]

/-- The environment after a term is the same when other terms come in the place of parts, but for
what has moved. -/
theorem environment_replacing
    (exchanges : ∀ part ∈ whole.topmost test, Exchanges moved (value part) part)
    (inPlace : whole.All InPlace) (listed : Bool) (env : Environment) :
    environment listed (whole.replacing test value moved) (moveAll moved env) =
    moveAll moved (environment listed whole env) := by
  induction whole using Term.induction generalizing listed env with
  | step place form ih =>
    cases hit : test place.ref with
    | true =>
      rw [replacing_of_hit hit]
      exact (exchanges _ (by rw [topmost_of_hit hit]; exact .head _)).environment listed env
    | false =>
      rw [replacing_node, if_neg (Bool.eq_false_iff.1 hit), environment_node, environment_node,
        outerSteps, outerSteps, Kind.outerTasks_of_skeleton (skeleton_mapChildren _ form),
        steps_replacing hit exchanges inPlace (.inl rfl)]
      refine environmentAfter_move (fun listed part reads => ?_) env
      have held := mem_parts_of_step reads
      exact ih part held (fun inner inside => exchanges inner (topmost_of_child hit held inside))
        (inPlace.child held) listed

/-- The visits stay when other terms come in the place of parts, but for what has moved; what is
inside these parts is no longer visited. -/
theorem visit_replacing (exchanges : ∀ part ∈ whole.topmost test, Exchanges moved (value part) part)
    (inPlace : whole.All InPlace) {visit : Visit}
    (outside : ∀ part ∈ whole.topmost test, visit.part ∈ part.subterms → visit.part = part)
    (visited : visit ∈ visits listed whole env) :
    ⟨visit.part.replacing test value moved, visit.listed, moveAll moved visit.env⟩ ∈
      visits listed (whole.replacing test value moved) (moveAll moved env) := by
  induction whole using Term.induction generalizing listed env with
  | step place form ih =>
    cases hit : test place.ref with
    | true =>
      have isWhole := outside _ (by rw [topmost_of_hit hit]; exact .head _) (part_of_visit visited)
      have notInside {steps : List Step} {env : Environment} {tasks : List Task}
          (same : steps = tasks.flatMap (stepsOf place.ref form))
          (visited : visit ∈ visitsOf steps env) : False := by
        obtain ⟨front, listed', child, back, split, inside⟩ := exists_read_of_visit visited
        have held : child ∈ parts form :=
          mem_parts_of_step (same ▸ split ▸ List.mem_append_right _ (.head _))
        have shorter := @Tree.length_subterms_lt _ (node place form) _ held
        have le := (subterms_sublist (part_of_visit inside)).length_le
        rw [isWhole] at le
        omega
      rcases visit_cases visited with isNode | visited | visited
      · rw [isNode]
        exact visit_self _ _ _
      · exact (notInside rfl visited).elim
      · exact (notInside rfl visited).elim
    | false =>
      have child {part : Outline} (held : part ∈ parts form) :
          ∀ inner ∈ part.topmost test, Exchanges moved (value inner) inner :=
        fun inner inside => exchanges inner (topmost_of_child hit held inside)
      have within {tasks : List Task} {env : Environment}
          (among : tasks = form.outerTasks listed ∨ tasks = form.innerTasks)
          (visited : visit ∈ visitsOf (tasks.flatMap (stepsOf place.ref form)) env) :
          ⟨visit.part.replacing test value moved, visit.listed, moveAll moved visit.env⟩ ∈
            visitsOf (tasks.flatMap (stepsOf (moved place.ref)
            (mapChildren (replacing test value moved) form))) (moveAll moved env) := by
        obtain ⟨front, listed', around, back, same, inside⟩ := exists_read_of_visit visited
        have held : ∀ listed part, Step.read listed part ∈ front ++ .read listed' around :: back →
            part ∈ parts form := fun listed part member => mem_parts_of_step (same ▸ member)
        have isChild := held listed' around (List.mem_append_right _ (.head _))
        rw [steps_replacing hit exchanges inPlace among, same, List.map_append, List.map_cons]
        refine visits_subset _ _ _ _ _ ?_
        rw [environmentAfter_move fun listed part reads env => ?_]
        · exact ih around isChild (child isChild) (inPlace.child isChild)
            (fun part topmost => outside part (topmost_of_child hit isChild topmost)) inside
        · have isPart := held listed part (List.mem_append_left _ reads)
          exact environment_replacing (child isPart) (inPlace.child isPart) listed env
      rw [replacing_node, if_neg (Bool.eq_false_iff.1 hit)]
      rcases visit_cases visited with isNode | visited | visited
      · rw [isNode, replacing_node, if_neg (Bool.eq_false_iff.1 hit)]
        exact visit_self _ _ _
      · refine visitsOf_outerSteps_subset listed ⟨moved place.ref, place.span⟩ _ _ ?_
        rw [outerSteps, Kind.outerTasks_of_skeleton (skeleton_mapChildren _ form)]
        exact within (.inl rfl) visited
      · refine visitsOf_innerSteps_subset listed ⟨moved place.ref, place.span⟩ _ _ ?_
        rw [innerSteps, Kind.innerTasks_of_skeleton (skeleton_mapChildren _ form)]
        have around := environment_replacing exchanges inPlace listed env
        rw [replacing_node, if_neg (Bool.eq_false_iff.1 hit), environment_node,
          environment_node] at around
        rw [around]
        exact within (.inr rfl) visited

end

section

variable {listed : Bool} {whole old new : Outline} {env : Environment}

/-- Putting a term in the place of a part moves nothing. -/
theorem swap_eq_replacing (target : Ref) (new whole : Outline) :
    swap target new whole = whole.replacing (· == target) (fun _ => new) id := by
  rw [swap, replacing]
  congr 2
  funext part form
  simp only [beq_iff_eq]
  rfl

theorem Substitutes.exchanges (substitutes : Substitutes new old)
    (unique : ∀ part ∈ whole.subterms, part.ref = old.ref → part = old) :
    ∀ part ∈ whole.topmost (· == old.ref), Exchanges id new part := by
  intro part inside
  obtain ⟨within, hit⟩ := topmost_subset _ whole part inside
  obtain rfl := unique part within (beq_iff_eq.1 hit)
  exact ⟨substitutes.sort, substitutes.declarators,
    fun listed env => by simpa using substitutes.environment listed env⟩

/-- The visits stay when another term comes in the place of a part, which is visited in the
environment of the part; what is inside the part is no longer visited. -/
theorem visit_swap (substitutes : Substitutes new old) (inPlace : whole.All InPlace)
    (unique : ∀ part ∈ whole.subterms, part.ref = old.ref → part = old) {visit : Visit}
    (outside : visit.part ∈ old.subterms → visit.part = old)
    (visited : visit ∈ visits listed whole env) :
    ⟨swap old.ref new visit.part, visit.listed, visit.env⟩ ∈
    visits listed (swap old.ref new whole) env := by
  have replaced :=
    visit_replacing (substitutes.exchanges unique) inPlace (fun part inside within => by
    obtain ⟨isPart, hit⟩ := topmost_subset _ whole part inside
    obtain rfl := unique part isPart (beq_iff_eq.1 hit)
    exact outside within) visited
  rwa [moveAll_id, moveAll_id, ← swap_eq_replacing, ← swap_eq_replacing] at replaced

/-- The parts after a swap are those of what came and those outside of what went, with the swap made
in them. -/
theorem exists_of_mem_subterms_swap {part : Outline} (once : whole.refs.Nodup)
    (within : old ∈ whole.subterms)
    (inside : part ∈ (swap old.ref new whole).subterms) :
    part ∈ new.subterms ∨ ∃ other ∈ whole.subterms, other ∉ old.subterms ∧
    part = swap old.ref new other := by
  refine @around_induction whole old
    (fun whole => ∀ part ∈ (swap old.ref new whole).subterms, part ∈ new.subterms ∨
    ∃ other ∈ whole.subterms, other ∉ old.subterms ∧ part = swap old.ref new other) once within
    (fun part inside => ?_)
    (fun other apart part inside => ?_) (fun place form outside ih part inside => ?_) part inside
  · rw [swap_self] at inside
    exact .inl inside
  · rw [swap_of_not_mem (apart (ref_mem_refs old))] at inside
    have notIn {ref : Ref} (isPart : ref ∈ part.refs) : ref ∉ old.refs :=
      fun isOld => apart isOld (refs_subset inside isPart)
    exact .inr ⟨part, inside, fun isOld => notIn (ref_mem_refs part) (mem_refs.2
      ⟨part, isOld, rfl⟩), (swap_of_not_mem fun isOld => notIn isOld (ref_mem_refs old)).symm⟩
  · have above : place.ref ≠ old.ref := fun here => outside (here ▸ ref_mem_refs old)
    rw [swap_node, if_neg above, subterms_node, parts_mapChildren] at inside
    rcases List.mem_cons.1 inside with rfl | inside
    · exact .inr ⟨_, self_mem_subterms _, fun isOld =>
        outside (mem_refs.2 ⟨_, isOld, rfl⟩), by rw [swap_node, if_neg above]⟩
    · obtain ⟨_, isChild, inside⟩ := List.mem_flatMap.1 inside
      obtain ⟨child, held, rfl⟩ := List.mem_map.1 isChild
      refine (ih child held part inside).imp_right fun found => ?_
      obtain ⟨other, isOther, found⟩ := found
      exact ⟨other, mem_subterms_of_child held isOther, found⟩

/-- A name after a swap is one in what came or one outside of what went. -/
theorem ident_of_mem_subterms_swap {part : Outline} {name : String} (once : whole.refs.Nodup)
    (within : old ∈ whole.subterms) (inside : part ∈ (swap old.ref new whole).subterms)
    (isName : part.kind = .ident name) :
    part ∈ new.subterms ∨ part ∈ whole.subterms ∧ part ∉ old.subterms := by
  refine (exists_of_mem_subterms_swap once within inside).imp_right fun found => ?_
  obtain ⟨other, isOther, outside, rfl⟩ := found
  have differ : other.ref ≠ old.ref := fun here =>
    outside (subterm_unique once isOther within here ▸ self_mem_subterms _)
  rw [kind_swap_of_ne differ] at isName
  rcases other with ⟨place, form⟩
  cases form <;> cases isName
  rw [ref_node] at differ
  rw [swap_node, if_neg differ]
  exact ⟨isOther, outside⟩

end

end Term

end Refactory
