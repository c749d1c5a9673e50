import Refactory.Proofs.Refactoring.LoopBodies
import Refactory.Proofs.Refactoring.Preservation

/-!
# There and back with loops

A loop over elements that becomes a counted loop and then a loop over elements again is the loop
that it was, but for the name of its variable and for its type, which is inferred
(`Context.elementLoop_restored`). The counter has a name that occurs nowhere in the loop, so it is
used by the elements that came into the body and by nothing else
(`ElementLoop.IsCounted.isElementAt_of_remaining`); and since the counted loop has no hazard, each
of these elements is one of the collection (`ElementLoop.IsCounted.isElementAt`).
-/
namespace Refactory

open Term Refactory.Tree

/-- The form of a loop over elements with another name for its variable and a type that is inferred;
other forms stay. -/
def Kind.withVariable (name : String) : Form Unit → Form Unit
  | .forEach _ _ collection body =>
    .forEach (some (.node () (.typeRef "var" [] 0))) name collection body
  | form => form

namespace Term

/-- The shape of a program in which the variable of a loop and all references to it have another
name, and the type of the variable is inferred. -/
def renamingVariable (refers : Ref → Bool) (loop : Ref) (name : String) : Outline → Shape :=
  rework fun part form => .node () (if refers part.ref then .ident name
    else if part.ref = loop then form.withVariable name else form)

variable {refers : Ref → Bool} {loop : Ref} {name : String}

theorem renamingVariable_node (place : Place)
    (form : Form Place) : renamingVariable refers loop name (.node place form) =
    .node () (if refers place.ref then .ident name else if place.ref
        = loop then (mapChildren (renamingVariable refers loop name) form).withVariable name
      else mapChildren (renamingVariable refers loop name) form) := rework_node ..

/-- Nothing is renamed where nothing refers to the variable of a loop that is elsewhere. -/
theorem renamingVariable_of_absent {term : Outline} (absent : loop ∉ term.refs)
    (none : ∀ ref ∈ term.refs, refers ref = false) :
    term.renamingVariable refers loop name = term.shape := by
  induction term using Term.induction with
  | step place form ih =>
    have differ : place.ref ≠ loop := fun same => absent (same ▸ ref_mem_refs _)
    rw [renamingVariable_node, if_neg (Bool.eq_false_iff.1
      (none place.ref (ref_mem_refs (.node place form)))), if_neg differ, shape_node, mapForm_eq]
    exact congrArg _ (mapChildren_congr fun child held => ih child held
      (fun inside => absent (refs_subset (@child_mem_subterms _ (.node place form) _ held) inside))
      fun ref inside =>
      none ref (refs_subset (@child_mem_subterms _ (.node place form) _ held) inside))

/-- Outside of the loop only references are renamed. -/
theorem renamingVariable_eq_shapeNaming {term : Outline} (absent : loop ∉ term.refs) :
    term.renamingVariable refers loop name = term.shapeNaming refers name := by
  induction term using Term.induction with
  | step place form ih =>
    have differ : place.ref ≠ loop := fun same => absent (same ▸ ref_mem_refs _)
    rw [renamingVariable_node, shapeNaming_node, if_neg differ]
    split
    · rfl
    · exact congrArg _ (mapChildren_congr fun child held => ih child held
        fun inside => absent (refs_subset (@child_mem_subterms _ (.node place form) _ held) inside))

/-- A program in which another loop comes in the place of one has the shape of the program in which
the variable of the loop is renamed, when it has the body of the loop with all references in it
renamed. -/
theorem shape_swap_eq_renamingVariable {whole term new collection : Outline}
    {body body' : Option Outline} {type type' : Option Outline}
    {variable' : String} (once : whole.refs.Nodup) (within : term ∈ whole.subterms)
    (form : term.kind = .forEach type variable' (some collection) body)
    (formNew : new.kind = .forEach type' name (some collection) body')
    (inferred : type'.map Term.shape = some (.node () (.typeRef "var" [] 0)))
    (bodies : body'.map Term.shape = body.map (shapeNaming refers name))
    (references : ∀ part ∈ whole.subterms, refers part.ref = true →
      ∃ inner ∈ body, part ∈ inner.subterms) :
    (Term.swap term.ref new whole).shape = whole.renamingVariable refers term.ref name := by
  have onceTerm := once.sublist (refs_sublist within)
  have child {inner : Outline} (isBody : inner ∈ body) : inner ∈ term.children := by
    obtain rfl := Option.mem_def.1 isBody
    simp [children, form, parts]
  have heldCollection : collection ∈ term.children := by simp [children, form, parts]
  have notRoot {held part : Outline} (isChild : held ∈ term.children)
      (inside : part ∈ held.subterms) : part.ref ≠ term.ref :=
    (ref_ne_of_child onceTerm isChild inside).symm
  have absent {held : Outline} (isChild : held ∈ term.children) : term.ref ∉ held.refs :=
    fun inside => by
    obtain ⟨part, isPart, same⟩ := mem_refs.1 inside
    exact notRoot isChild isPart same
  refine @around_induction whole term (fun other =>
    (∀ part ∈ other.subterms, refers part.ref = true → ∃ inner ∈ body, part ∈ inner.subterms) →
      (Term.swap term.ref new other).shape = other.renamingVariable refers term.ref name)
    once within (fun references => ?_) (fun other apart references => ?_)
    (fun place kind outside ih references => ?_) references
  · have collectionStays : collection.renamingVariable refers term.ref name = collection.shape := by
      refine renamingVariable_of_absent (absent heldCollection) fun ref inside =>
        Bool.eq_false_iff.2 fun isReference => ?_
      obtain ⟨part, isPart, rfl⟩ := mem_refs.1 inside
      obtain ⟨inner, isBody, inBody⟩ :=
        references part (mem_subterms_of_child heldCollection isPart) isReference
      obtain rfl := Option.mem_def.1 isBody
      have apart : (collection.refs ++ inner.refs).Nodup := by
        have sublist : ([collection, inner].flatMap refs).Sublist term.innerRefs := by
          refine List.Sublist.flatMap ?_ refs
          simp [children, form, parts]
        rw [refs_eq, List.nodup_cons] at onceTerm
        simpa using onceTerm.2.sublist sublist
      exact (List.nodup_append'.1 apart).2.2 (mem_refs.2 ⟨part, isPart, rfl⟩)
        (mem_refs.2 ⟨part, inBody, rfl⟩)
    have bodyRenamed :
        body.map (renamingVariable refers term.ref name) = body.map (shapeNaming refers name) :=
      Option.map_congr fun inner isBody => renamingVariable_eq_shapeNaming (absent (child isBody))
    have isVariable : refers term.ref = false := Bool.eq_false_iff.2 fun isReference => by
      obtain ⟨inner, isBody, inside⟩ := references term (self_mem_subterms term) isReference
      exact notRoot (child isBody) inside rfl
    rw [swap_self]
    rcases term with ⟨place, kind⟩
    rcases new with ⟨placeNew, kindNew⟩
    obtain rfl : kind = _ := form
    obtain rfl : kindNew = _ := formNew
    rw [ref_node] at isVariable collectionStays bodyRenamed
    rw [ref_node, renamingVariable_node, if_neg (Bool.eq_false_iff.1 isVariable), if_pos rfl,
      shape_node]
    have shapes : mapForm (fun _ => ()) (.forEach type' name (some collection) body' : Form Place) =
        .forEach (type'.map Term.shape) name (some collection.shape) (body'.map Term.shape) := by
      rw [mapForm_eq]
      rfl
    have renamed : mapChildren (renamingVariable refers place.ref name)
        (.forEach type variable' (some collection) body) =
        .forEach (type.map (renamingVariable refers place.ref name)) variable'
          (some (renamingVariable refers place.ref name collection))
          (body.map (renamingVariable refers place.ref name)) := rfl
    rw [shapes, renamed, Kind.withVariable, inferred, bodies, bodyRenamed, collectionStays]
  · rw [swap_of_not_mem (apart (ref_mem_refs term)),
      renamingVariable_of_absent (apart (ref_mem_refs term))]
    refine fun ref inside => Bool.eq_false_iff.2 fun isReference => ?_
    obtain ⟨part, isPart, rfl⟩ := mem_refs.1 inside
    obtain ⟨inner, isBody, inBody⟩ := references part isPart isReference
    exact apart (mem_refs.2 ⟨part, mem_subterms_of_child (child isBody) inBody, rfl⟩) inside
  · have differ : place.ref ≠ term.ref := fun same => outside (same ▸ ref_mem_refs term)
    have isVariable : refers place.ref = false := Bool.eq_false_iff.2 fun isReference => by
      obtain ⟨inner, isBody, inside⟩ := references _ (self_mem_subterms _) isReference
      exact outside (mem_refs.2 ⟨_, mem_subterms_of_child (child isBody) inside, rfl⟩)
    rw [swap_node, if_neg differ, renamingVariable_node, if_neg (Bool.eq_false_iff.1 isVariable),
      if_neg differ, shape_node, mapForm_eq, mapChildren_mapChildren]
    exact congrArg _ (mapChildren_congr fun held isChild => ih held isChild fun part inside =>
      references part (mem_subterms_of_child isChild inside))

end Term

namespace Tree

variable {tree : Tree} {whole term part : Outline}

/-- All references to the variable of a loop over elements are in the body of the loop. -/
theorem IsUnit.mem_body_of_isAt {type collection body : Option Outline} {variable' : String}
    {element : SymbolId} (unit : tree.IsUnit whole) (within : term ∈ whole.subterms)
    (form : term.kind = .forEach type variable' collection body)
    (declares : (Model.build tree).declaredSymbol term.ref = some element)
    (inside : part ∈ whole.subterms)
    (refers : (Referent.symbol element).isAt tree (Model.build tree) part.ref = true) :
    ∃ inner ∈ body, part ∈ inner.subterms := by
  obtain ⟨name, isName, isSymbol⟩ := (unit.stands.shows inside).exists_ident_of_isAt refers
  have refersTo := unit.declarationOf_of_symbolOf isSymbol declares
  have named : part.kind.sort ∉ [NodeSort.type, .param] := by rw [isName]; simp [Kind.sort]
  have real : none ∉ whole.refs := fun absent => (unit.stands.hasRef absent).ne_none rfl
  have isLoop : (∃ declaration initializers condition steps body, term.kind
      = .forLoop declaration initializers condition steps body) ∨
    ∃ type name collection body, term.kind = .forEach type name collection body :=
    .inr ⟨_, _, _, _, form⟩
  have inLoop : part ∈ term.subterms := by
    by_contra outside
    obtain ⟨listed, env, visited⟩ := exists_visit unit.inPlace inside named false []
    rw [unit.declarationOf_of_visit visited isName] at refersTo
    exact not_mem_refs_of_loop unit.stands.once real unit.inPlace within isLoop visited
      (fun here => absurd here outside) refersTo (ref_mem_refs term)
  rw [subterms_eq] at inLoop
  rcases List.mem_cons.1 inLoop with rfl | inChild
  · rw [form] at isName
    cases isName
  obtain ⟨child, held, inChild⟩ := List.mem_flatMap.1 inChild
  have inPlace := unit.inPlace.subterm within
  have among : child ∈ type ∨ child ∈ collection ∨ child ∈ body := by
    simpa [Term.children, form, parts] using held
  rcases among with isType | isCollection | isBody
  · -- In a type there are no names.
    have sort : child.kind.sort = .type := by
      have fits := inPlace.here.sorts
      rw [form] at fits
      cases fits with
      | cons fits _ => simpa using fits child (by simpa using isType)
    exact absurd (sort_of_mem_subterms (inPlace.child held) (by simp [sort]) inChild) named
  · -- The collection is read in front of the loop.
    obtain rfl := Option.mem_def.1 isCollection
    obtain ⟨listed, env, visitedLoop⟩ :=
      exists_visit unit.inPlace within (by rw [form]; simp [Kind.sort]) false []
    obtain ⟨listed', env', visited⟩ := exists_visit (inPlace.child held) inChild named false env
    rw [unit.declarationOf_of_visit
      (visits_trans (visit_collection form visitedLoop) visited) isName] at refersTo
    obtain ⟨front, rfl, elsewhere⟩ := exists_visits_of_visit visited
    rw [List.lookup_append, Option.or_eq_some_iff] at refersTo
    rcases refersTo with inFront | ⟨-, around⟩
    · obtain ⟨other, isPart, same⟩ :=
        mem_refs.1 (mem_refs_of_visit (elsewhere []) (by simpa using inFront))
      exact absurd same.symm
        (ref_ne_of_child (unit.stands.once.sublist (refs_sublist within)) held isPart)
    · exact absurd (ref_mem_refs term)
        (not_mem_refs_of_loop unit.stands.once real unit.inPlace within isLoop visitedLoop
        (fun _ => rfl) around)
  · exact ⟨child, isBody, inChild⟩

end Tree

namespace ElementLoop

section

variable {tree : Tree} {whole term target declarator body inner part : Outline}
  {sizeMember counter name : String} {test : Ref → Bool} {value : Outline → Outline}
  {moved : Ref → Ref} {loop : CountedLoop}

/-- An element is in place when the collection is. -/
theorem all_inPlace_of_isElementOf {old new : Outline}
    (isElement : IsElementOf target counter old new)
    (inPlace : target.All InPlace ∧ target.kind.sort = .expression) :
    new.kind.sort = .expression ∧ new.All InPlace := by
  obtain ⟨copy, position, form, shape, formPosition⟩ := isElement
  have sort : copy.kind.sort = .expression := by
    rw [← inPlace.2, ← Kind.sort_of_skeleton copy.skeleton_shape, shape,
      Kind.sort_of_skeleton target.skeleton_shape]
  have inPlacePosition : position.All InPlace :=
    all_inPlace_of_form formPosition .nil (by simp [parts])
  refine ⟨by rw [form]; rfl, all_inPlace_of_form form
    (.cons (fits_one.2 ?_) (.cons (fits_many.2 ?_) .nil)) ?_⟩
  · rintro _ ⟨rfl⟩
    exact List.mem_singleton.2 sort
  · simp [formPosition, Kind.sort]
  · simpa [parts] using ⟨all_inPlace_of_shape shape inPlace.1, inPlacePosition⟩

/-- Elements of a collection in a body declare no more than the body and the collection. -/
theorem undeclared_replacing (arePut : ArePut test (IsElementOf target counter) value inner)
    (undeclared : ∀ part ∈ inner.subterms, part.kind.declaredName? ≠ some name)
    (undeclaredTarget : target.All fun part => part.kind.declaredName? ≠ some name) :
    ∀ part ∈ (inner.replacing test value moved).subterms, part.kind.declaredName? ≠ some name := by
  intro part inside
  rcases exists_of_mem_subterms_replacing inside with ⟨hit, isHit, inValue⟩ | ⟨other, remains, rfl⟩
  · obtain ⟨copy, position, form, shape, formPosition⟩ := arePut hit isHit
    rw [subterms_eq] at inValue
    have among : part = value hit ∨ part ∈ copy.subterms ∨ part ∈ position.subterms := by
      simpa [Term.children, form, parts] using inValue
    rcases among with rfl | inCopy | inPosition
    · simp [form, Kind.declaredName?]
    · -- A copy has the shape of the collection.
      have same (part : Outline) : part.kind.declaredName? = part.shape.kind.declaredName? :=
        Kind.declaredName?_of_skeleton part.skeleton_shape.symm
      have known : target.shape.All fun part => part.kind.declaredName? ≠ some name :=
        all_map_iff.2 (undeclaredTarget.mono fun part undeclared => same part ▸ undeclared)
      rw [← shape] at known
      rw [same]
      exact all_iff_subterms.1 (all_map_iff.1 known) part inCopy
    · rw [subterms_eq] at inPosition
      obtain rfl : part = position := by simpa [Term.children, formPosition, parts] using inPosition
      simp [formPosition, Kind.declaredName?]
  · obtain ⟨within, miss⟩ := remaining_subset test inner other remains
    rw [kind_replacing miss, Kind.declaredName?_of_skeleton (skeleton_mapChildren _ _)]
    exact undeclared other within

/-- Where the body of a counted loop does not declare the name of the counter once more, every name
in it that is spelled like the counter refers to the counter. -/
theorem IsCounted.symbolOf
    (isCounted : IsCounted target sizeMember counter (some body) declarator term)
    (unit : tree.IsUnit whole) (within : term ∈ whole.subterms)
    (undeclared : ∀ part ∈ body.subterms, part.kind.declaredName? ≠ some counter)
    (inside : part ∈ body.subterms)
    (isName : part.kind = .ident counter) :
    (Model.build tree).symbolOf part.ref = (Model.build tree).declaredSymbol declarator.ref := by
  obtain ⟨⟨_, _, _, form, ⟨_, formDeclaration⟩, -, -⟩, _, formDeclarator, -⟩ := isCounted
  have inPlace := unit.inPlace.subterm within
  obtain ⟨listed, env, visited⟩ :=
    exists_visit unit.inPlace within (by rw [form]; simp [Kind.sort]) false []
  have held : body ∈ term.children := by simp [Term.children, form, parts]
  obtain ⟨listed', env', visitedName⟩ :=
    exists_visit (inPlace.child held) inside (by rw [isName]; simp [Kind.sort]) false
      ((counter, declarator.ref) :: env)
  have understood := unit.toIsProgram.understood_of_visit unit.sorts unit.isUnit
    (visits_trans (visit_counted inPlace form formDeclaration formDeclarator visited) visitedName)
  have found := lookup_of_visit undeclared visitedName
  dsimp only at found
  rw [understood.refers counter isName, Model.meaning, found, List.lookup_cons_self]
  rfl

/-- The parts with which a counted loop over a collection stands are those of which it was made. -/
theorem IsCounted.eq_of_stands {model : Model} {body body' : Option Outline}
    {collection declarator' : Outline}
    (isCounted : IsCounted target sizeMember counter body declarator term)
    (stands : loop.Stands tree model term collection declarator' body' name) :
    collection = target ∧ declarator' = declarator ∧ body' = body := by
  obtain ⟨⟨_, _, _, form, ⟨_, formDeclaration⟩, ⟨_, size, formCondition, -, formSize⟩, -⟩, -⟩ :=
    isCounted
  obtain ⟨_, _, _, _, _, _, form', formDeclaration', formCondition', isSize⟩ := stands.form
  rw [form] at form'
  cases form'
  rw [formDeclaration] at formDeclaration'
  cases formDeclaration'
  rw [formCondition] at formCondition'
  cases formCondition'
  refine ⟨?_, rfl, rfl⟩
  cases isSize with
  | member form =>
    rw [formSize] at form
    cases form
    rfl
  | call form _ =>
    rw [formSize] at form
    cases form

/-- In a counted loop without a hazard every element of a collection that was put into the body is
an element of the collection. -/
theorem IsCounted.isElementAt
    (isCounted : IsCounted target sizeMember counter (some body) declarator term)
    (stands : loop.Stands tree (Model.build tree) term target declarator (some body) name)
    (unit : tree.IsUnit whole)
    (within : term ∈ whole.subterms) (safe : loop.hazard? tree (Model.build tree) = none)
    (undeclared : ∀ part ∈ body.subterms, part.kind.declaredName? ≠ some counter)
    {old new : Outline}
    (inside : new ∈ body.subterms) (isElement : IsElementOf target counter old new) :
    tree.isElementAt (Model.build tree) loop.counter target.ref new.ref = true := by
  obtain ⟨copy, position, form, -, formPosition⟩ := isElement
  have held : position ∈ new.children := by simp [Term.children, form, parts]
  have inBody := subterms_child inside held
  obtain ⟨access, inAccess, isAccess, receiver, formAccess⟩ :=
    stands.exists_element unit.toIsProgram within safe inBody
      ((isCounted.symbolOf unit within undeclared inBody formPosition).trans stands.counter)
  -- Both are the parent of the position.
  have standsBody := stands.apart.each body (by simp)
  have heldAccess : position ∈ access.children := by simp [Term.children, formAccess, parts]
  obtain rfl : access = new := subterm_unique standsBody.once inAccess inside
    ((standsBody.parent inAccess heldAccess).symm.trans (standsBody.parent inside held))
  exact (isElementAt_iff (standsBody.shown.subterm inside)
    (stands.apart.each target (by simp)).displays).2 isAccess

/-- Where a counter has a name that is not used in a body, no part of the body becomes an element
when elements come into the body. -/
theorem IsCounted.isElementAt_of_remaining (isCounted : IsCounted target sizeMember counter
      (some (inner.replacing test value moved)) declarator term) (stands : loop.Stands tree
      (Model.build tree) term target declarator (some (inner.replacing test value moved)) name)
    (unit : tree.IsUnit whole) (within : term ∈ whole.subterms)
    (arePut : ArePut test (IsElementOf target counter) value inner)
    (unused : ∀ part ∈ inner.subterms, part.kind ≠ .ident counter)
    (remains : part ∈ inner.remaining test) :
    tree.isElementAt (Model.build tree) loop.counter target.ref (moved part.ref) = false := by
  obtain ⟨inInner, miss⟩ := remaining_subset test inner part remains
  have inBody := @replacing_mem_subterms _ value moved _ _ (.inl remains)
  have standsBody := stands.apart.each (inner.replacing test value moved) (by simp)
  have bodyWithin := subterms_child within stands.body_mem_children
  rw [← @ref_replacing _ value moved _ miss]
  refine Bool.eq_false_iff.2 fun found => ?_
  obtain ⟨receiver, position, form, isCounter, -⟩ :=
    (isElementAt_iff (standsBody.shown.subterm inBody)
    (stands.apart.each target (by simp)).displays).1 found
  have held : position ∈ (part.replacing test value moved).children := by
    simp [Term.children, form, parts]
  -- The position is a name that is spelled like the counter.
  have isName : position.kind = .ident counter := by
    obtain ⟨⟨declaration, _, _, formLoop, ⟨_, formDeclaration⟩, -, -⟩, _, formDeclarator, -⟩ :=
      isCounted
    have heldDeclaration : declaration ∈ term.children := by simp [Term.children, formLoop, parts]
    have heldDeclarator : declarator ∈ declaration.children := by
      simp [Term.children, formDeclaration, parts]
    have declaratorWithin := subterms_child (subterms_child within heldDeclaration)
      heldDeclarator
    have declares : (tree.kind declarator.ref).declaredName? = some counter := by
      rw [(unit.stands.shows declaratorWithin).declaredName?, formDeclarator]
      rfl
    obtain ⟨other, otherWithin, same, isName⟩ :=
      unit.exists_ident_of_symbolOf declares stands.counter isCounter
    rwa [subterm_unique unit.stands.once otherWithin
      (subterms_trans bodyWithin (subterms_child inBody held)) same] at isName
  rw [Term.children, kind_replacing miss, parts_mapChildren] at held
  obtain ⟨child, isChild, rfl⟩ := List.mem_map.1 held
  rcases mem_remaining_or_topmost remains isChild with remains | isHit
  · obtain ⟨childInner, childMiss⟩ := remaining_subset test inner child remains
    rw [kind_replacing childMiss] at isName
    refine unused child childInner ?_
    have skeleton := skeleton_mapChildren (replacing test value moved) child.kind
    rw [isName] at skeleton
    cases isKind : child.kind <;> rw [isKind] at skeleton <;> cases skeleton
    rfl
  · obtain ⟨copy, position, form, -, -⟩ := arePut child isHit
    rw [replacing_of_hit (topmost_subset test inner child isHit).2, form] at isName
    cases isName

end

section

variable {loop : ElementLoop} {tree placed : Tree} {whole term target converted : Outline}
  {type body : Option Outline} {sizeMember counter variable' : String} {element : SymbolId}
  (counts : loop.Counts
    (Model.build tree) element sizeMember counter tree tree whole term target body converted placed)
  (unit : tree.IsUnit whole) (within : term ∈ whole.subterms)
  (form : term.kind = .forEach type variable' (some target) body)

include counts unit within form

/-- The program with the counted loop is that of a unit. -/
theorem Counts.isUnit : placed.IsUnit (Term.swap term.ref converted whole) := by
  obtain ⟨value, moved, declarator, isCounted, arePut⟩ := counts.form
  have inPlace := unit.inPlace.subterm within
  have heldTarget : target ∈ term.children := by simp [Term.children, form, parts]
  have sorts := inPlace.here.sorts
  rw [form] at sorts
  obtain ⟨-, sortTarget, sortBody⟩ : _ ∧ _ ∧ _ := by
    simpa only [Kind.slots, Kind.childSorts, List.forall₂_cons, fits_one, List.forall₂_nil_left_iff,
      and_true] using sorts
  have inPlaceTarget : target.All InPlace ∧ target.kind.sort = .expression :=
    ⟨inPlace.child heldTarget, by simpa using sortTarget⟩
  have sortTerm : term.kind.sort = .statement := by rw [form]; rfl
  refine unit.swap within counts.program
    (isCounted.all_inPlace inPlaceTarget fun new isNew => ?_) ?_ (.inr sortTerm)
  · obtain ⟨inner, isBody, rfl⟩ := Option.map_eq_some_iff.1 (Option.mem_def.1 isNew)
    have held : inner ∈ term.children := by simp [Term.children, form, parts, isBody]
    have exchanged :=
      @all_inPlace_replacing _ value moved inner (inPlace.child held) fun part isHit => by
      obtain ⟨inInner, hit⟩ := topmost_subset _ inner part isHit
      have inWhole := subterms_trans within (subterms_trans (child_mem_subterms held) inInner)
      obtain ⟨name, isName, -⟩ := (unit.stands.shows inWhole).exists_ident_of_isAt hit
      exact ⟨by rw [isName]; rfl,
        all_inPlace_of_isElementOf (arePut inner isBody part isHit) inPlaceTarget⟩
    exact ⟨exchanged.1, exchanged.2.trans (by simpa using sortBody inner (Option.mem_def.2 isBody))⟩
  · obtain ⟨_, _, _, formNew, -⟩ := isCounted.form
    rw [formNew, form]
    rfl

/-- When the counted loop is converted back, the program has the shape that it had, but for the name
of the variable of the loop and for its type. -/
theorem Counts.restored (declares : (Model.build tree).declaredSymbol term.ref = some element)
    (fresh : counter ∉ tree.namesIn term.ref) {settings : Settings}
    {ref : Ref} {back : CountedLoop} {action : Action} (member : ref ∈ placed.attached)
    (found : (Context.ofTree placed settings).convertedLoop? ref = some back)
    (same : back.ref = converted.ref)
    (offered : (Context.ofTree placed settings).offered? .forToForEach ref = .ok (some action)) :
    action.result.shape =
    whole.renamingVariable ((Referent.symbol element).isAt tree (Model.build tree)) term.ref
      ((Context.ofTree placed settings).elementName back) := by
  have unit' := counts.isUnit unit within form
  obtain ⟨value, moved, declarator, isCounted, arePut⟩ := counts.form
  have withinNew := @mem_subterms_swap converted _ _ unit.stands.once within
  obtain ⟨safe, other, withinOther, collection, _, _, counterName, stands⟩ :=
    @Context.stands_of_convertedLoop?
      (.ofTree placed settings) _ _ _ unit'.toIsProgram (unit'.attached ▸ member) found
  obtain rfl : other = converted :=
    subterm_unique unit'.stands.once withinOther withinNew (stands.isLoop.symm.trans same)
  obtain ⟨rfl, rfl, rfl⟩ := isCounted.eq_of_stands stands
  obtain ⟨value', moved', restored, isProgram, ⟨place, isLoop⟩, arePut', -⟩ :=
    @Context.of_offered _ .forToForEach _ _ _ (@Context.forToForEach_names
      (.ofTree placed settings) _ _ _ _ _ _ _ _ unit'.toIsProgram withinNew found stands).yields
    offered
  rw [Tree.shape, isProgram.outline_root, swap_swap_self unit.stands.once within unit'.stands.once]
  refine shape_swap_eq_renamingVariable unit.stands.once within form isLoop rfl ?_
    fun part inside refers =>
    unit.mem_body_of_isAt within form declares inside refers
  cases body with
  | none => rfl
  | some inner =>
    have held : inner ∈ term.children := by simp [Term.children, form, parts]
    have heldCollection : collection ∈ term.children := by simp [Term.children, form, parts]
    have unnamed {part : Outline} (inside : part ∈ term.subterms) :=
      (unit.stands.subterm within).unnamed_of_namesIn fresh inside
    have undeclared :=
      @undeclared_replacing collection inner counter counter _ value moved (arePut inner rfl)
        (fun part inside => (unnamed (mem_subterms_of_child held inside)).2)
        (all_iff_subterms.2 fun part inside =>
        (unnamed (mem_subterms_of_child heldCollection inside)).2)
    refine congrArg some (shape_replacing_replacing (fun part isHit => ?_) (fun part remains => ?_)
      fun part isHit => ?_)
    · refine isCounted.isElementAt stands unit' withinNew safe undeclared ?_
        (arePut inner rfl part isHit)
      rw [← replacing_of_hit (topmost_subset _ inner part isHit).2 value moved]
      exact replacing_mem_subterms (.inr isHit)
    · exact isCounted.isElementAt_of_remaining stands unit' withinNew (arePut inner rfl)
        (fun part inside => (unnamed (mem_subterms_of_child held inside)).1) remains
    · exact arePut' _ rfl part isHit

end

end ElementLoop

namespace Context

/-- Converting a loop over elements of a stable path whose size is known puts a counted loop over
the path in its place. -/
theorem forEachToFor_counts {context : Context} {whole term target : Outline}
    {body : Option Outline} {ref : Ref}
    {loop : ElementLoop} {element : SymbolId} (program : context.tree.IsProgram whole)
    (within : term ∈ whole.subterms)
    (found : (context.tree.lineage ref).findSome? context.tree.elementLoop? = some loop)
    (declares : context.model.declaredSymbol loop.ref = some element) (isLoop : loop.ref = term.ref)
    (isCollection : loop.collection = target.ref) (isBody : loop.body = refOf body)
    (all : context.tree.StandsAll (target :: body.toList))
    (below : (target :: body.toList).flatMap refs ⊆ term.innerRefs)
    (stable : context.tree.isStablePath loop.collection = true)
    (sized : (context.model.typeOf loop.collection).collectionShape?.isSome) :
    Attempt.Gives (context.forEachToFor ref)
    (Offers fun result => ∃ sizeMember converted, loop.Counts context.model element sizeMember
        ((context.namesAt loop.ref).pick [] context.settings.counter).1
        context.tree context.tree whole term target body converted result) := by
  obtain ⟨shape, isShape⟩ := Option.isSome_iff_exists.1 sized
  have isAccess :
      loop.access? context.tree context.model = some (.inPlace, shape.lengthMember) := by
    rw [ElementLoop.access?]
    simp only [isShape, stable, if_true]
  rw [forEachToFor]
  simp only [found, declares, Option.bind_eq_bind, Option.bind_some, Option.pure_def, isAccess]
  split
  · exact Attempt.refuse_offers _
  · rename_i none
    cases none
  · rename_i access sizeMember _ same
    obtain ⟨rfl, rfl⟩ := Prod.mk.inj (Option.some.inj same)
    refine (Attempt.Gives.pure
      (rfl : ("", context.namesAt loop.ref) = ("", context.namesAt loop.ref))).bind
      fun named isNamed => ?_
    subst isNamed
    refine (Attempt.pickName_gives _ _ _).bind fun picked isPicked => ?_
    subst isPicked
    obtain ⟨converted, placed, changed, counts⟩ :=
      ElementLoop.toCountedLoop_inPlace context.model element shape.lengthMember ""
        ((context.namesAt loop.ref).pick [] context.settings.counter).1 program within isLoop
      isCollection isBody all below
    refine (offer_of_eq changed).mono fun offered isOffered action isAction => ?_
    obtain rfl := Option.some.inj (isAction.symm.trans isOffered)
    exact ⟨_, converted, counts⟩

/-- A loop over the elements of a stable path whose size is known comes back after it was converted
into a counted loop, whose counter had a free name, and this loop was converted again: the program
has the shape that it had, but for the name of the variable of the loop, which is another one for
the loop and for all references, and for the type of the variable. -/
theorem elementLoop_restored {tree : Tree} {settings : Settings} {ref : Ref} {loop : ElementLoop}
    {first : Action}
    (wellFormed : tree.WellFormed) (sorted : tree.IsSorted) (member : ref ∈ tree.attached)
    (isLoop : (tree.lineage ref).findSome? tree.elementLoop? = some loop)
    (stable : tree.isStablePath loop.collection = true)
    (sized : ((Model.build tree).typeOf loop.collection).collectionShape?.isSome)
    (free : ((ofTree tree settings).namesAt loop.ref).isFree
      (((ofTree tree settings).namesAt loop.ref).pick [] settings.counter).1 = true)
    (offered : (ofTree tree settings).offered? .forEachToFor ref = .ok (some first)) :
    ∃ element converted, (Model.build tree).declaredSymbol loop.ref = some element ∧
      first.result.outline first.result.root
        = Term.swap loop.ref converted (tree.outline tree.root) ∧
      ∀ settings' ref' back second, ref' ∈ first.result.attached →
        (ofTree first.result settings').convertedLoop? ref' = some back → back.ref = converted.ref →
        (ofTree first.result settings').offered? .forToForEach ref' = .ok (some second) →
        second.result.shape = (tree.outline tree.root).renamingVariable
          ((Referent.symbol element).isAt tree (Model.build tree)) loop.ref
          ((ofTree first.result settings').elementName back) := by
  obtain ⟨whole, unit⟩ := sorted.exists_isUnit wellFormed
  rw [unit.attached] at member
  obtain ⟨target, inLineage, found⟩ := List.exists_of_findSome?_eq_some isLoop
  obtain ⟨term, within, rfl⟩ := mem_refs.1 (unit.lineage_subset member inLineage)
  obtain ⟨collection, body, atTerm, isCollection, isBody, all, below, type, variable', form⟩ :=
    stands_of_elementLoop? (unit.stands.subterm within) found
  obtain ⟨collection, rfl⟩ : ∃ target, collection = some target := by
    cases collection with
    | none => simp [isCollection, isStablePath_none] at stable
    | some target => exact ⟨target, rfl⟩
  obtain ⟨element, declares⟩ := unit.exists_symbol within (by rw [form]; rfl)
  have declares' : (Model.build tree).declaredSymbol loop.ref = some element := atTerm ▸ declares
  obtain ⟨sizeMember, converted, counts⟩ :=
    @of_offered _ .forEachToFor _ _ _ (@forEachToFor_counts (ofTree tree settings) _ _ _ _
    _ _ _ unit.toIsProgram within isLoop declares' atTerm isCollection isBody all below stable
      sized).yields offered
  refine ⟨element, converted, declares', ?_,
    fun settings' ref' back second member found same offered => ?_⟩
  · rw [counts.program.outline_root, unit.outline_root, atTerm]
  · rw [unit.outline_root, atTerm]
    refine counts.restored unit within form declares ?_ member found same offered
    rw [← atTerm]
    exact not_mem_namesIn_of_isFree free

/-- A loop whose variable is used twice, once in front of a call, comes back. -/
theorem elementLoop_restored_of_calls : ∃ tree first back second element,
    Tree.parse 0 "int[] xs = a; foreach (int x in xs) \x7b F(x, x.G()); \x7d" = .ok tree ∧
      (ofTree tree {}).offered? .forEachToFor (some 16) = .ok (some first) ∧
      (ofTree first.result {}).convertedLoop? (some 40) = some back ∧
      (ofTree first.result {}).offered? .forToForEach (some 40) = .ok (some second) ∧
      (Model.build tree).declaredSymbol (some 16) = some element ∧
      second.result.shape = (tree.outline tree.root).renamingVariable
        ((Referent.symbol element).isAt tree (Model.build tree)) (some 16)
        ((ofTree first.result {}).elementName back) := by
  have facts :
      (Tree.parse 0 "int[] xs = a; foreach (int x in xs) \x7b F(x, x.G()); \x7d").toOption.any
      (fun tree =>
      some 16 ∈ tree.attached && (tree.outline tree.root).ref ≠ some 16 &&
        (tree.outline tree.root).children[1]?.map Term.ref = some (some 16) &&
        ((tree.lineage (some 16)).findSome? tree.elementLoop?).any fun loop => loop.ref = some 16 &&
          tree.isStablePath loop.collection &&
          ((Model.build tree).typeOf loop.collection).collectionShape?.isSome &&
          ((ofTree tree {}).namesAt loop.ref).isFree
          (((ofTree tree {}).namesAt loop.ref).pick [] ({} : Settings).counter).1 &&
          ((ofTree tree {}).offered? .forEachToFor (some 16)).toOption.any fun offered =>
          offered.any fun first => some 40 ∈ first.result.attached &&
              (first.result.outline first.result.root).children[1]?.map Term.ref = some (some 40) &&
              (((ofTree first.result {}).convertedLoop? (some 40)).any fun back =>
              back.ref = some 40) && ((ofTree first.result {}).offered? .forToForEach
              (some 40)).toOption.any Option.isSome) = true := by
    decide +kernel
  obtain ⟨tree, parsed, facts⟩ := exists_of_any facts
  simp only [Bool.and_eq_true, decide_eq_true_eq, Option.any_eq_true] at facts
  obtain ⟨⟨⟨member, notRoot⟩, isChild⟩, loop, isLoop, ⟨⟨⟨here, stable⟩, sized⟩, free⟩, offered,
    isOffered, first, rfl,
    ⟨⟨memberNew, isChildNew⟩, back, found, isBack⟩, again, isAgain, offeredAgain⟩ := facts
  obtain ⟨second, rfl⟩ := Option.isSome_iff_exists.1 offeredAgain
  obtain ⟨element, converted, declares, outline, restored⟩ :=
    elementLoop_restored (wellFormed_of_parse parsed)
      (isSorted_of_parse parsed) member isLoop stable sized free (eq_ok_of_toOption isOffered)
  -- The loop that comes in the place of the second statement is the second statement.
  have same : back.ref = converted.ref := by
    obtain ⟨child, isChild, atChild⟩ := Option.map_eq_some_iff.1 isChild
    rw [outline, Term.children, kind_swap_of_ne (here ▸ notRoot), parts_mapChildren,
      List.getElem?_map] at isChildNew
    rw [Term.children] at isChild
    rw [isChild, here, ← atChild, Option.map_some, swap_self] at isChildNew
    exact isBack.trans (Option.some.inj isChildNew).symm
  exact ⟨tree, first, back, second,
    element, parsed, eq_ok_of_toOption isOffered, found, eq_ok_of_toOption isAgain, here ▸ declares,
    here ▸ restored {} (some 40) back second memberNew found same (eq_ok_of_toOption isAgain)⟩

end Context

end Refactory
