import Refactory.Proofs.Model.Declarations
import Refactory.Proofs.Naming
import Refactory.Proofs.Refactoring.Loop
import Refactory.Proofs.Refactoring.Runs

/-!
# The bodies of loops

What a counted loop without a hazard does with its counter is to read elements of its collection:
every use of the counter is the only index of such an element (`CountedLoop.Stands.exists_element`),
and an element has no other use in it, so there are as many elements as uses
(`CountedLoop.Stands.length_uses`).
-/
namespace Refactory

open Term Refactory.Tree

namespace Term

variable {test : Ref → Bool} {value : Outline → Outline} {moved : Ref → Ref} {model : Model}

/-- A term in which expressions come in the place of expressions has its children in place, and it
stays of its sort. -/
theorem all_inPlace_replacing {old : Outline} (inPlace : old.All InPlace)
    (exchanged : ∀ part ∈ old.topmost test, part.kind.sort = .expression ∧
        (value part).kind.sort = .expression ∧ (value part).All InPlace) :
    (old.replacing test value moved).All InPlace ∧
    (old.replacing test value moved).kind.sort = old.kind.sort := by
  induction old using Term.induction with
  | step place form ih =>
    cases hit : test place.ref with
    | true =>
      obtain ⟨sort, sortNew, inPlaceNew⟩ :=
        exchanged (.node place form) (by rw [topmost_of_hit hit]; exact .head _)
      rw [replacing_of_hit hit, sort, sortNew]
      exact ⟨inPlaceNew, rfl⟩
    | false =>
      have below (child : Outline) (held : child ∈ parts form) := ih child held (inPlace.child held)
        fun part inside => exchanged part (topmost_of_child hit held inside)
      rw [replacing_node, if_neg (Bool.eq_false_iff.1 hit)]
      have here := inPlace.here.mapChildren fun child held => (below child held).2
      refine ⟨.intro ⟨here.sorts⟩ fun child held =>
        ?_, Kind.sort_of_skeleton (skeleton_mapChildren _ form)⟩
      rw [children, kind, parts_mapChildren] at held
      obtain ⟨old, isChild, rfl⟩ := List.mem_map.1 held
      exact (below old isChild).1

/-- A stable path has names and members in it and nothing else. -/
theorem SamePath.kind_cases {left right part : Outline} (same : SamePath model left right)
    (inside : part ∈ left.subterms) :
    (∃ name, part.kind = .ident name) ∨
    ∃ receiver name, part.kind = .member (some receiver) name false := by
  induction same with
  | @name left right leftName rightName isLeft isRight same =>
    obtain rfl : part = left := by
      rw [subterms_eq] at inside
      simpa [children, isLeft, parts] using inside
    exact .inl ⟨leftName, isLeft⟩
  | @member left right leftReceiver rightReceiver name isLeft isRight _ ih =>
    rw [subterms_eq] at inside
    rcases List.mem_cons.1 inside with rfl | inside
    · exact .inr ⟨leftReceiver, name, isLeft⟩
    · exact ih (by simpa [children, isLeft, parts] using inside)

/-- No element is accessed in a stable path. -/
theorem SamePath.kind_ne_index {left right part : Outline}
    (same : SamePath model left right) (inside : part ∈ left.subterms) (receiver : Option Outline)
    (arguments : List Outline) : part.kind ≠ .index receiver arguments := by
  rcases same.kind_cases inside with ⟨name, form⟩ | ⟨inner, name, form⟩ <;> simp [form]

end Term

/-- A loop over elements is in place when the collection and the body are. -/
theorem CountedLoop.IsElementLoop.all_inPlace {name : String} {collection loop : Outline}
    {body : Option Outline} (isLoop : IsElementLoop name collection body loop)
    (inPlace : collection.All InPlace ∧ collection.kind.sort = .expression)
    (inPlaceBody : ∀ term ∈ body, term.All InPlace ∧ term.kind.sort = .statement) :
    loop.All InPlace := by
  obtain ⟨place, form⟩ := isLoop
  refine all_inPlace_of_form form
    (.cons (fits_one.2 ?_) (.cons (fits_one.2 ?_) (.cons (fits_one.2 ?_) .nil))) ?_
  · rintro _ ⟨rfl⟩
    exact .head _
  · rintro _ ⟨rfl⟩
    exact List.mem_singleton.2 inPlace.2
  · exact fun term held => List.mem_singleton.2 (inPlaceBody term held).2
  · intro child held
    simp only [parts, Kind.slots, List.flatMap_cons, List.flatMap_nil, Slot.terms, List.append_nil,
      Option.toList_some, List.mem_append, List.mem_singleton, Option.mem_toList] at held
    rcases held with rfl | rfl | held
    · exact all_inPlace_typeRef place "var"
    · exact inPlace.1
    · exact (inPlaceBody child held).1

/-- A counted loop over the size of a collection is in place when the collection and the body
are. -/
theorem ElementLoop.IsCounted.all_inPlace {sizeMember counter : String}
    {target declarator loop : Outline} {body : Option Outline}
    (isLoop : IsCounted target sizeMember counter body declarator loop)
    (inPlace : target.All InPlace ∧ target.kind.sort = .expression)
    (inPlaceBody : ∀ term ∈ body, term.All InPlace ∧ term.kind.sort = .statement) :
    loop.All InPlace := by
  obtain ⟨⟨declaration, condition, step, form, ⟨place, formDeclaration⟩,
    ⟨tested, size, formCondition, formTested, formSize⟩, stepped, formStep, formStepped⟩, zero,
    formDeclarator, formZero⟩ := isLoop
  -- A node with at most two children, all of which are expressions.
  have atom {term : Outline} {form : Form Place} (isForm : term.kind = form)
      (none : form.slots = []) (sorts : form.childSorts = []) : term.All InPlace :=
    all_inPlace_of_form isForm (by rw [none, sorts]; exact .nil) (by rw [parts, none]; simp)
  have inPlaceSize : size.All InPlace := all_inPlace_of_form formSize
    (.cons (fits_one.2 (by rintro _ ⟨rfl⟩; exact List.mem_singleton.2 inPlace.2)) .nil)
    (by simpa [parts] using inPlace.1)
  have inPlaceCondition : condition.All InPlace := by
    refine all_inPlace_of_form formCondition (.cons (fits_one.2 ?_) (.cons (fits_one.2 ?_) .nil)) ?_
    · rintro _ ⟨rfl⟩
      rw [formTested]
      exact .head _
    · rintro _ ⟨rfl⟩
      rw [formSize]
      exact .head _
    · simpa [parts] using ⟨atom formTested rfl rfl, inPlaceSize⟩
  have inPlaceStep : step.All InPlace := by
    refine all_inPlace_of_form formStep (.cons (fits_one.2 ?_) .nil) ?_
    · rintro _ ⟨rfl⟩
      rw [formStepped]
      exact .head _
    · simpa [parts] using atom formStepped rfl rfl
  have inPlaceDeclarator : declarator.All InPlace := by
    refine all_inPlace_of_form formDeclarator (.cons (fits_one.2 ?_) .nil) ?_
    · rintro _ ⟨rfl⟩
      rw [formZero]
      exact .head _
    · simpa [parts] using atom formZero rfl rfl
  have inPlaceDeclaration : declaration.All InPlace := by
    refine all_inPlace_of_form formDeclaration
      (.cons (fits_one.2 ?_) (.cons (fits_many.2 ?_) .nil)) ?_
    · rintro _ ⟨rfl⟩
      exact .head _
    · simp [formDeclarator, Kind.sort]
    · simp only [parts, Kind.slots, List.flatMap_cons, List.flatMap_nil, Slot.terms,
        List.append_nil, Option.toList_some, List.mem_append, List.mem_singleton]
      rintro child (rfl | rfl)
      · exact all_inPlace_typeRef place "int"
      · exact inPlaceDeclarator
  refine all_inPlace_of_form form
    (.cons (fits_one.2 ?_) (.cons (fits_many.2 (by simp)) (.cons (fits_one.2 ?_)
    (.cons (fits_many.2 ?_)
    (.cons (fits_one.2 fun term held => List.mem_singleton.2 (inPlaceBody term held).2) .nil))))) ?_
  · rintro _ ⟨rfl⟩
    rw [formDeclaration]
    exact .head _
  · rintro _ ⟨rfl⟩
    rw [formCondition]
    exact .head _
  · simp [formStep, Kind.sort]
  · simp only [parts, Kind.slots, List.flatMap_cons, List.flatMap_nil, Slot.terms, List.append_nil,
      Option.toList_some, List.nil_append, List.mem_append, List.mem_singleton, Option.mem_toList]
    rintro child (rfl | rfl | rfl | held)
    · exact inPlaceDeclaration
    · exact inPlaceCondition
    · exact inPlaceStep
    · exact (inPlaceBody child held).1

namespace Tree

variable {tree : Tree} {model : Model} {body collection use access : Ref} {counter : SymbolId}

/-- Where a body has no hazard every use of the counter in it is in an element access. -/
theorem exists_elementAccess (safe : tree.countedLoopHazard? model body counter collection = none)
    (member : use ∈ tree.descendants body) (isUse : model.symbolOf use = some counter) :
    ∃ access, tree.elementAccess? model collection use = some access := by
  rw [countedLoopHazard?] at safe
  cases harmless : ((tree.descendants body).filter (model.symbolOf · == some counter)).findSome?
      (tree.counterUseHazard? model body collection) with
  | some hazard => rw [harmless] at safe; cases safe
  | none =>
    have unharmed :=
      List.findSome?_eq_none_iff.1 harmless use (List.mem_filter.2 ⟨member, by simp [isUse]⟩)
    rw [counterUseHazard?] at unharmed
    split at unharmed
    · cases unharmed
    · split at unharmed
      · cases unharmed
      · rename_i found
        exact ⟨_, found⟩

/-- The element access that a node is the index of is above the node. -/
theorem elementAccess?_eq_some (found : tree.elementAccess? model collection use = some access) :
    ∃ receiver arguments, tree.kind (tree.parent use) = .index receiver arguments ∧
    tree.items arguments = [use] ∧ tree.samePath model receiver collection = true := by
  rw [elementAccess?] at found
  split at found
  · cases found
  · split at found
    · rename_i receiver arguments isIndex
      split at found
      · rename_i isAccess
        obtain ⟨single, same⟩ := Bool.and_eq_true_iff.1 isAccess
        exact ⟨receiver, arguments, isIndex, of_decide_eq_true single, same⟩
      · cases found
    · cases found

end Tree

namespace CountedLoop

/-- The only index of an element access. -/
def indexRef (access : Outline) : Ref :=
  match access.kind with
  | .index _ [position] => position.ref
  | _ => none

/-- A counted loop is converted: a loop over elements comes in its place, in whose body a name
stands in the place of the elements of the collection. -/
structure Converts (loop : CountedLoop) (tree : Tree) (model : Model)
    (whole term collection : Outline) (body : Option Outline)
    (name : String) (value : Outline → Outline) (moved : Ref → Ref) (converted : Outline)
    (after : Tree) : Prop where
  /-- The loop over elements is in the place of the counted loop. -/
  program : after.IsProgram (Term.swap term.ref converted whole)
  /-- It has the collection and the body of the counted loop, with something else in the place of
  the elements. -/
  form : IsElementLoop name collection
    (body.map (replacing (tree.isElementAt model loop.counter collection.ref) value moved))
    converted
  /-- The name is in the place of the elements. -/
  named : ∀ inner ∈ body, ArePut (tree.isElementAt model loop.counter collection.ref)
    (fun _ new => new.kind = .ident name) value inner
  /-- It is made of new nodes and of those of the collection and the body. -/
  origin : ∀ ref ∈ converted.refs, tree.HasRef ref →
    ref ∈ (body.toList ++ [collection]).flatMap refs

variable {loop : CountedLoop} {tree : Tree} {model : Model}
  {whole term collection declarator body part : Outline} {name : String}

/-- The body is a child of the loop. -/
theorem Stands.body_mem_children
    (stands : loop.Stands tree model term collection declarator (some body) name) :
    body ∈ term.children := by
  obtain ⟨_, _, _, _, _, _, form, -⟩ := stands.form
  simp [Term.children, form, parts]

/-- A counted loop is no element access. -/
theorem Stands.kind_ne_index {inner : Option Outline}
    (stands : loop.Stands tree model term collection declarator inner name)
    (shows : tree.Shows term) (receiver : Ref)
    (arguments : Range) : tree.kind term.ref ≠ .index receiver arguments := by
  obtain ⟨_, _, _, _, _, _, form, -⟩ := stands.form
  intro isIndex
  have depicts := shows.depicts
  rw [form, isIndex] at depicts
  cases depicts.skeleton

/-- In a loop without a hazard every use of the counter in the body is the only index of an element
of the collection. -/
theorem Stands.exists_element
    (stands : loop.Stands tree model term collection declarator (some body) name)
    (program : tree.IsProgram whole) (within : term ∈ whole.subterms)
    (safe : loop.hazard? tree model = none)
    (inside : part ∈ body.subterms) (isUse : model.symbolOf part.ref = some loop.counter) :
    ∃ access ∈ body.subterms, IsElement model loop.counter collection access ∧
      ∃ receiver, access.kind = .index receiver [part] := by
  have standsBody := stands.apart.each body (by simp)
  have standsCollection := stands.apart.each collection (by simp)
  rw [hazard?, stands.isBody, stands.isCollection] at safe
  obtain ⟨access, found⟩ := exists_elementAccess safe
    (by rw [refOf_some, standsBody.descendants]; exact mem_refs.2 ⟨part, inside, rfl⟩) isUse
  obtain ⟨receiver, arguments, isIndex, single, isSame⟩ := elementAccess?_eq_some found
  -- The parent of the use is in the body, since the parent of the body is the loop.
  rcases exists_holder inside with rfl | ⟨holder, isPart, held⟩
  · rw [program.stands.parent within stands.body_mem_children] at isIndex
    exact absurd isIndex (stands.kind_ne_index (program.stands.shows within) _ _)
  · rw [standsBody.parent isPart held] at isIndex
    have shown := standsBody.shown.subterm isPart
    have depicts := shown.here.depicts
    rw [isIndex] at depicts
    obtain ⟨receiver, arguments, form, rfl, entries⟩ := depicts.index
    rw [entries] at single
    obtain ⟨argument, rfl, same⟩ := List.map_eq_singleton_iff.1 single
    have isChild : argument ∈ holder.children := by simp [Term.children, form, parts]
    obtain rfl : argument = part :=
      subterm_unique standsBody.once (subterms_child isPart isChild) inside same
    obtain ⟨receiver, rfl, same⟩ := (samePath_iff (fun inner isInner => shown.child (by
      simp [Term.children, form, parts,
        Option.mem_def.1 isInner])) standsCollection.displays).1 isSame
    exact ⟨holder, isPart, ⟨receiver, _, form, isUse, same⟩, _, form⟩

section

variable (unit : tree.IsUnit whole)

include unit

/-- There are no elements in the parts of an element. -/
theorem eq_of_isElement {counter : SymbolId} {outer inner : Outline} {receiver : Option Outline}
    {arguments : List Outline} (within : outer ∈ whole.subterms)
    (isElement : IsElement (Model.build tree) counter collection outer)
    (inside : inner ∈ outer.subterms) (form : inner.kind = .index receiver arguments) :
    inner = outer := by
  obtain ⟨path, position, isOuter, isCounter, same⟩ := isElement
  have held : position ∈ outer.children := by simp [Term.children, isOuter, parts]
  rw [subterms_eq] at inside
  have among : inner = outer ∨ inner ∈ path.subterms ∨ inner ∈ position.subterms := by
    simpa [Term.children, isOuter, parts] using inside
  rcases among with here | inPath | inPosition
  · exact here
  · exact absurd form (same.kind_ne_index inPath _ _)
  · -- What refers to the counter is a name.
    obtain ⟨other, otherWithin, atPosition, name, isName⟩ :=
      unit.toIsProgram.exists_ident_of_symbolOf (Option.isSome_iff_exists.2 ⟨_, isCounter⟩)
    obtain rfl :=
      subterm_unique unit.stands.once otherWithin (subterms_child within held) atPosition
    rw [subterms_eq] at inPosition
    obtain rfl : inner = other := by simpa [Term.children, isName, parts] using inPosition
    rw [isName] at form
    cases form

variable (within : term ∈ whole.subterms)
  (stands : loop.Stands tree (Model.build tree) term collection declarator (some body) name)
  (safe : loop.hazard? tree (Model.build tree) = none)

include within stands

/-- Every element in the body is one of the topmost ones. -/
theorem Stands.mem_topmost {access : Outline} (inside : access ∈ body.subterms)
    (isElement : IsElement (Model.build tree) loop.counter collection access) :
    access ∈ body.topmost (tree.isElementAt (Model.build tree) loop.counter collection.ref) := by
  have standsBody := stands.apart.each body (by simp)
  have displays := (stands.apart.each collection (by simp)).displays
  obtain ⟨receiver, position, form, -, -⟩ := id isElement
  rcases @mem_remaining_or
    (tree.isElementAt (Model.build tree) loop.counter collection.ref) _ _ inside with
    remains | ⟨hit, isHit, inHit⟩
  · have miss := (remaining_subset _ body access remains).2
    rw [(isElementAt_iff (standsBody.shown.subterm inside) displays).2 isElement] at miss
    cases miss
  · obtain ⟨hitInside, isElementHit⟩ := topmost_subset _ body hit isHit
    have hitWithin :=
      subterms_trans within (subterms_trans (child_mem_subterms stands.body_mem_children) hitInside)
    rwa [eq_of_isElement unit hitWithin
      ((isElementAt_iff (standsBody.shown.subterm hitInside) displays).1 isElementHit) inHit form]

include safe

/-- Every use of the counter in the body is the only index of one of the topmost elements. -/
theorem Stands.exists_topmost (inside : part ∈ body.subterms)
    (isUse : (Model.build tree).symbolOf part.ref = some loop.counter) :
    ∃ access ∈ body.topmost (tree.isElementAt (Model.build tree) loop.counter collection.ref),
      ∃ receiver, access.kind = .index receiver [part] := by
  obtain ⟨access, inBody, isElement, form⟩ :=
    stands.exists_element unit.toIsProgram within safe inside isUse
  exact ⟨access, stands.mem_topmost unit within inBody isElement, form⟩

/-- What remains of the body besides the elements does not use the counter. -/
theorem Stands.symbolOf_of_remaining (remains : part ∈
      body.remaining (tree.isElementAt (Model.build tree) loop.counter collection.ref)) :
    (Model.build tree).symbolOf part.ref ≠ some loop.counter := by
  intro isUse
  have inside := (remaining_subset _ body part remains).1
  obtain ⟨access, isHit, receiver, form⟩ := stands.exists_topmost unit within safe inside isUse
  exact not_mem_subterms_of_remaining (stands.apart.each body (by simp)).once remains isHit
    (child_mem_subterms (by simp [Term.children, form, parts]))

/-- There are as many elements in the body as uses of the counter. -/
theorem Stands.length_uses : ((tree.descendants loop.body).filter
      ((Model.build tree).symbolOf · == some loop.counter)).length =
    (body.topmost (tree.isElementAt (Model.build tree) loop.counter collection.ref)).length := by
  have standsBody := stands.apart.each body (by simp)
  have displays := (stands.apart.each collection (by simp)).displays
  have element {access : Outline} (isHit : access ∈
      body.topmost (tree.isElementAt (Model.build tree) loop.counter collection.ref)) :
      access ∈ body.subterms ∧ IsElement (Model.build tree) loop.counter collection access := by
    obtain ⟨inside, hit⟩ := topmost_subset _ body access isHit
    exact ⟨inside, (isElementAt_iff (standsBody.shown.subterm inside) displays).1 hit⟩
  rw [stands.isBody, refOf_some, standsBody.descendants, ← List.length_map indexRef]
  -- The index of an element tells the element, since it is its parent.
  have oneElement :
      ∀ left ∈ body.topmost (tree.isElementAt (Model.build tree) loop.counter collection.ref),
      ∀ right ∈ body.topmost (tree.isElementAt (Model.build tree) loop.counter collection.ref),
        indexRef left = indexRef right → left = right := by
    intro left isLeft right isRight same
    obtain ⟨inLeft, _, leftIndex, formLeft, -, -⟩ := element isLeft
    obtain ⟨inRight, _, rightIndex, formRight, -, -⟩ := element isRight
    have heldLeft : leftIndex ∈ left.children := by simp [Term.children, formLeft, parts]
    have heldRight : rightIndex ∈ right.children := by simp [Term.children, formRight, parts]
    rw [indexRef, indexRef, formLeft, formRight] at same
    refine subterm_unique standsBody.once inLeft inRight ?_
    rw [← standsBody.parent inLeft heldLeft, ← standsBody.parent inRight heldRight]
    exact congrArg tree.parent same
  refine ((List.perm_ext_iff_of_nodup (standsBody.once.filter _) (List.Nodup.map_on oneElement
    ((List.Nodup.of_map _ standsBody.once).sublist (topmost_sublist _ body)))).2 fun ref =>
    ?_).length_eq
  rw [List.mem_filter, List.mem_map]
  refine ⟨fun isUse => ?_, fun isIndex => ?_⟩
  · obtain ⟨part, inside, rfl⟩ := mem_refs.1 isUse.1
    obtain ⟨access, isHit, receiver, form⟩ :=
      stands.exists_topmost unit within safe inside (beq_iff_eq.1 isUse.2)
    exact ⟨access, isHit, by rw [indexRef, form]⟩
  · obtain ⟨access, isHit, rfl⟩ := isIndex
    obtain ⟨inside, receiver, position, form, isCounter, -⟩ := element isHit
    have held : position ∈ access.children := by simp [Term.children, form, parts]
    rw [indexRef, form]
    exact ⟨mem_refs.2 ⟨position, subterms_child inside held, rfl⟩, beq_iff_eq.2 isCounter⟩

end

end CountedLoop

namespace Context

variable {context : Context} {whole : Outline} {ref : Ref} {loop : CountedLoop}

/-- The name that the elements of a loop are given. -/
def elementName (context : Context) (loop : CountedLoop) : String :=
  ((context.namesAt loop.ref).pick
    (loop.suggestedNames context.tree context.model) context.settings.iteration).1

/-- Converting a counted loop puts a loop over elements in its place in whose body the elements have
a name. -/
theorem forToForEach_names {term collection declarator : Outline} {body : Option Outline}
    {counter : String}
    (program : context.tree.IsProgram whole) (within : term ∈ whole.subterms)
    (found : context.convertedLoop? ref = some loop)
    (stands : loop.Stands context.tree context.model term collection declarator body counter) :
    Attempt.Gives (context.forToForEach ref) (Offers fun result =>
      ∃ value moved converted, loop.Converts context.tree context.model whole term collection body
        (context.elementName loop) value moved converted result) := by
  rw [forToForEach]
  refine (context.firstSafe_find _).bind fun safe isSafe => ?_
  obtain rfl : safe = some loop := isSafe.trans found
  refine (Attempt.pickName_gives _ _ _).bind fun picked isPicked => ?_
  obtain ⟨name, names⟩ := picked
  have isName : name = context.elementName loop := congrArg Prod.fst isPicked
  obtain ⟨_, _, scratch, named, builds, value, moved, same, rfl, arePut⟩ :=
    @nameElements_makes context.tree context.model body loop.counter collection name program.stored
      (StandsAll.append_iff.1 stands.apart).1 (stands.apart.each collection (by simp))
  rw [← stands.isCollection] at named
  have ran :
      (nameElements context.model loop.counter loop.collection name loop.body).run context.tree
      = ((_, _), scratch) := stands.isBody ▸ named
  dsimp only
  rw [ran]
  refine (Attempt.note_gives _).bind fun _ _ => ?_
  rw [same]
  obtain ⟨after, converted, changed, places, isLoop, origin⟩ :=
    loop.toElementLoop_isProgram name program within stands.isLoop
    stands.isCollection stands.apart stands.inside builds
  refine (offer_of_eq changed).mono fun offered isOffered action isAction => ?_
  obtain rfl := Option.some.inj (isAction.symm.trans isOffered)
  exact ⟨value, moved, converted, places.program, isName ▸ isLoop, isName ▸ arePut, origin⟩

end Context

end Refactory
