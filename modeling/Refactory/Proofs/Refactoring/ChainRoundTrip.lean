import Refactory.Proofs.Refactoring.Links
import Refactory.Proofs.Refactoring.Runs

/-!
# Chains of calls that come back

Where temporaries were introduced for the calls of a chain under new names, they are found again and
can be inlined (`Context.chainCalls_of_introduces`), and the program is then the one that there was
(`Context.chainCalls_of_unchainCalls`). The statement in front must be no declaration of a call
itself: it would be the start of a longer run.
-/
namespace Refactory

open Term Refactory.Tree

namespace Term

section

variable {temporaries : List Introduced} {call statement last : Outline} {front back : List Outline}

/-- The call of a member is found in the trees that show it, and nothing else is. -/
theorem callsMember_iff {tree : Tree} (shown : call.All tree.Shows) :
    (tree.calledMember? call.ref).isSome ↔ CallsMember call := by
  constructor
  · intro isCall
    obtain ⟨called, found⟩ := Option.isSome_iff_exists.1 isCall
    obtain ⟨access, receiver, arguments, form, formAccess, -⟩ := calledMember?_eq_some shown found
    exact ⟨access, receiver, arguments, _, _, form, formAccess⟩
  · rintro ⟨access, receiver, arguments, name, conditional, form, formAccess⟩
    exact Option.isSome_iff_exists.2 ⟨_, calledMember?_of_form shown form formAccess⟩

/-- The values of temporaries that were introduced are calls of members. -/
theorem Introduces.callsMember (introduces : Introduces temporaries call statement last)
    (once : statement.refs.Nodup)
    (isCall : CallsMember call) : ∀ temporary ∈ temporaries, CallsMember temporary.value := by
  induction introduces with
  | done => exact List.forall_mem_nil _
  | @step temporary others call next statement last isValue made first fresh rest ih =>
    obtain ⟨⟨access, arguments, name, conditional, form, formAccess⟩, -⟩ :=
      made.first_use first once temporary.use
    refine List.forall_mem_cons.2
      ⟨isValue ▸ isCall, ih ?_ ⟨access, _, arguments, name, conditional, form, formAccess⟩⟩
    exact temporary.nodup_swap once (made.first.trans first).mem_subterms fresh

/-- What a member is called on is an expression, where all children are in place. -/
theorem MadeOn.sort {next : Outline} (made : MadeOn call next)
    (inPlace : next.All InPlace) : call.kind.sort = .expression := by
  obtain ⟨access, arguments, name, conditional, isCall, isAccess⟩ := made
  have held : access ∈ next.children := by simp [Term.children, isCall, parts]
  have sorts := (inPlace.child held).here.sorts
  rw [isAccess] at sorts
  simp only [Kind.slots, Kind.childSorts, List.forall₂_cons, fits_one, List.mem_singleton] at sorts
  exact sorts.1 call rfl

/-- The declarations of temporaries and what is left of the statement have their children in
place. -/
theorem Introduces.all_inPlace (introduces : Introduces temporaries call statement last)
    (once : statement.refs.Nodup)
    (inPlace : statement.All InPlace) (sort : statement.kind.sort = .statement) :
    ∀ term ∈ temporaries.map (·.declaration) ++ [last], term.All InPlace ∧
    term.kind.sort = .statement := by
  induction introduces with
  | done => exact fun term isLast => List.mem_singleton.1 isLast ▸ ⟨inPlace, sort⟩
  | @step temporary others call next statement last isValue made first fresh rest ih =>
    have inside := made.first.trans first
    have isExpression := made.sort (inPlace.subterm first.mem_subterms)
    have typed : temporary.type.All InPlace :=
      all_inPlace_of_form temporary.isType (.cons (fits_many.2 (by simp)) .nil) (by simp [parts])
    have declared : temporary.declarator.All InPlace := all_inPlace_of_form temporary.isDeclarator
      (.cons (fits_one.2 (by simp [isValue, isExpression])) .nil)
        (by simpa [parts, isValue] using inPlace.subterm inside.mem_subterms)
    have declaration : temporary.declaration.All InPlace := by
      refine all_inPlace_of_form temporary.isDeclaration
        (.cons (fits_one.2 ?_) (.cons (fits_many.2 ?_) .nil)) ?_
      · simp [temporary.isType, Kind.sort]
      · simp [temporary.isDeclarator, Kind.sort]
      · simpa [parts] using ⟨typed, declared⟩
    have used : temporary.use.All InPlace :=
      all_inPlace_of_form temporary.isUse .nil (by simp [parts])
    have sortUse : temporary.use.kind.sort = call.kind.sort := by
      rw [isExpression, temporary.isUse]; rfl
    have differ := (inside.leads.ref_ne once).symm
    rw [List.map_cons, List.cons_append, List.forall_mem_cons]
    refine ⟨⟨declaration, by rw [temporary.isDeclaration]; rfl⟩,
      ih (temporary.nodup_swap once inside.mem_subterms fresh)
        (all_inPlace_swap once inside.mem_subterms inPlace used sortUse) ?_⟩
    rw [kind_swap_of_ne differ, Kind.sort_of_skeleton (skeleton_mapChildren _ _), sort]

/-- A list of statements in which temporaries were introduced stays in place. -/
theorem Introduces.all_inPlace_list (introduces : Introduces temporaries call statement last)
    (once : statement.refs.Nodup) (inPlace : ∀ term ∈ front ++ statement :: back, term.All InPlace ∧
      term.kind.sort = .statement) :
    ∀ term ∈ front ++ (temporaries.map (·.declaration) ++ last :: back), term.All InPlace ∧
    term.kind.sort = .statement := by
  obtain ⟨inFront, inPlaceStatement, inBack⟩ := by
    simpa only [List.forall_mem_append, List.forall_mem_cons] using inPlace
  have made := introduces.all_inPlace once inPlaceStatement.1 inPlaceStatement.2
  simp only [List.forall_mem_append, List.forall_mem_cons, List.not_mem_nil, false_implies,
    implies_true, and_true] at made ⊢
  exact ⟨inFront, made.1, made.2, inBack⟩

end

end Term

namespace Tree

/-- A statement is the declaration of one variable of a name whose value is a call of a member. -/
def DeclaresCall (tree : Tree) (name : String) (statement : Ref) : Prop :=
  ∃ type declarators declarator value, tree.kind statement = .localDecl type declarators ∧
    tree.items declarators = [declarator] ∧
    tree.kind declarator = .declarator name value ∧ (tree.calledMember? value).isSome

/-- A declaration of one variable with a call of a member is one in the tree that shows it. -/
theorem declaresCall_of_form {tree : Tree} {statement declarator value : Outline}
    {type : Option Outline} {name : String} (shown : statement.All tree.Shows)
    (isDeclaration : statement.kind = .localDecl type [declarator])
    (isDeclarator : declarator.kind = .declarator name (some value))
    (isCall : (tree.calledMember? value.ref).isSome) :
    tree.DeclaresCall name statement.ref := by
  have held : declarator ∈ statement.children := by simp [Term.children, isDeclaration, parts]
  obtain ⟨range, isKind, entries, -⟩ := (isDeclaration ▸ shown.here.depicts).of_localDecl
  have isKindDeclarator := (isDeclarator ▸ (shown.child held).here.depicts).of_declarator
  exact ⟨_, range, declarator.ref, value.ref, isKind, entries, isKindDeclarator, isCall⟩

/-- A statement that declares no call in one tree declares none that could be inlined in another
tree that shows it. -/
theorem callDeclaration?_eq_none {tree other : Tree} {model : Model} {statement : Outline}
    (shown : statement.All tree.Shows) (shownOther : statement.All other.Shows)
    (none : ∀ name, ¬tree.DeclaresCall name statement.ref) :
    other.callDeclaration? model statement.ref = Option.none := by
  cases found : other.callDeclaration? model statement.ref with
  | none => rfl
  | some found' =>
    obtain ⟨type, value, declares, -, -, isCalled⟩ := callDeclaration?_eq_some shownOther found
    have inside := declares.mem_subterms
    obtain ⟨declarator, name, form, formDeclarator⟩ := declares
    have calls := (callsMember_iff (shownOther.subterm inside)).1 isCalled
    exact absurd (declaresCall_of_form shown form formDeclarator
      ((callsMember_iff (shown.subterm inside)).2 calls)) (none name)

/-- A statement that is directly in a list is one of the statements of a list in the program. -/
theorem IsProgram.exists_list {tree : Tree} {whole statement : Outline}
    (program : tree.IsProgram whole) (within : statement ∈ whole.subterms)
    (listed : tree.isStatementList (tree.parent statement.ref) = true) :
    ∃ (place : Place) (make : List Outline → Form Place) (front back : List Outline),
    IsListForm make ∧ .node place (make (front ++ statement :: back)) ∈ whole.subterms ∧
      tree.parent statement.ref = place.ref := by
  rcases program.parent_cases within with ⟨-, top⟩ | ⟨⟨place, form⟩, isHolder, held, atHolder⟩
  · rw [top] at listed
    cases listed
  · have isListed : form.isList = true :=
      (program.stands.shows isHolder).isStatementList.symm.trans (atHolder ▸ listed)
    obtain ⟨make, statements, isList, rfl⟩ := exists_listForm isListed
    rw [isList.children_eq] at held
    obtain ⟨front, back, rfl⟩ := List.append_of_mem held
    exact ⟨place, make, front, back, isList, isHolder, atHolder⟩

/-- Statements that come in front of what becomes of a statement of a list come into the list. -/
theorem Becomes.eq_of_isList {tree : Tree} {whole statement last term : Outline}
    {before front back : List Outline} {place : Place}
    {make : List Outline → Form Place} (becomes : Becomes whole statement (before ++ [last]) term)
    (program : tree.IsProgram whole) (isList : IsListForm make)
    (within : .node place (make (front ++ statement :: back)) ∈ whole.subterms) :
    term = Term.swap place.ref (.node place (make (front ++ (before ++ last :: back)))) whole := by
  have held : statement ∈ Term.children (.node place (make (front ++ statement :: back))) := by
    rw [isList.children_eq]
    exact List.mem_append_right _ (.head _)
  cases becomes with
  | @listed holder isHolder heldHere fits =>
    have same : holder.ref = place.ref :=
      (program.stands.parent isHolder heldHere).symm.trans (program.stands.parent within held)
    obtain rfl := subterm_unique program.stands.once isHolder within same
    have once := (program.stands.subterm within).children.1.once.sublist (roots_sublist _)
    rw [isList.children_eq] at once
    rw [Term.kind, isList.splice_split once, List.append_assoc, List.append_assoc,
      List.singleton_append]
    rfl
  | blocked place unlisted =>
    have listed := unlisted _ within held
    rw [Term.kind, isList.isList] at listed
    cases listed

/-- A list of statements is in place when all of them are. -/
theorem IsListForm.all_inPlace_iff {place : Place} {make : List Outline → Form Place}
    {statements : List Outline}
    (isList : IsListForm make) : (Term.node place (make statements)).All InPlace ↔
      ∀ term ∈ statements, term.All InPlace ∧ term.kind.sort = .statement := by
  have isSorted : InPlace (Term.node place (make statements)) ↔
      ∀ term ∈ statements, term.kind.sort = .statement := by
    rcases isList with rfl | rfl
    all_goals
      constructor
      · intro inPlace
        simpa [Kind.slots, Kind.childSorts, Term.kind, fits_many] using inPlace.sorts
      · intro sorts
        exact ⟨.cons (fits_many.2 fun term held => by simp [sorts term held]) .nil⟩
  rw [All.node_iff, isSorted, isList.parts_eq]
  exact ⟨fun all term held => ⟨all.2 term held, all.1 term held⟩,
    fun all => ⟨fun term held => (all term held).2, fun term held => (all term held).1⟩⟩

/-- Other statements in a list of a unit make a unit again. -/
theorem IsUnit.swap_list {tree after : Tree} {whole : Outline} {place : Place}
    {make : List Outline → Form Place}
    {statements others : List Outline} (unit : tree.IsUnit whole) (isList : IsListForm make)
    (within : .node place (make statements) ∈ whole.subterms)
    (program : after.IsProgram (Term.swap place.ref (.node place (make others)) whole))
    (inPlace : ∀ term ∈ others, term.All InPlace ∧ term.kind.sort = .statement) :
    after.IsUnit (Term.swap place.ref (.node place (make others)) whole) := by
  have sort (terms terms' : List Outline) : (make terms).sort = (make terms').sort := by
    rcases isList with rfl | rfl <;> rfl
  refine ⟨program, ?_, @all_inPlace_swap whole _ _ unit.stands.once within unit.inPlace
    (isList.all_inPlace_iff.2 inPlace)
    (sort others statements)⟩
  by_cases same : whole.ref = place.ref
  · obtain rfl := subterm_unique unit.stands.once (self_mem_subterms whole) within same
    have isUnit := unit.isUnit
    rw [Term.kind, sort statements others] at isUnit
    rw [swap_node, if_pos rfl]
    exact isUnit
  · rw [kind_swap_of_ne same, Kind.sort_of_skeleton (skeleton_mapChildren _ _), unit.isUnit]

end Tree

namespace Context

section

variable {tree : Tree} {settings : Settings} {whole : Outline} {temporary : Introduced}
  {others : List Introduced} {call statement last : Outline} {front back : List Outline}
  {place : Place} {make : List Outline → Form Place}

/-- Where temporaries were introduced for a statement under new names, inlining is offered at the
statement and takes all of them and no others back, unless the statement in front of them declares
what could be inlined as well. -/
theorem chainCalls_of_introduces (unit : tree.IsUnit whole) (isList : IsListForm make)
    (within : .node place (make
      (front ++ ((temporary :: others).map (·.declaration) ++ last :: back))) ∈ whole.subterms)
    (introduces : Introduces (temporary :: others) call statement last)
    (once : statement.refs.Nodup) (distinct : ((temporary :: others).map (·.name)).Nodup)
    (fresh : AreFresh (temporary :: others) (front ++ statement :: back))
    (isCall : CallsMember call) (isStatement : last.kind.isStatement)
    (noDeclaration : ∀ type declarators, last.kind ≠ .localDecl type declarators)
    (alone : ∀ before ∈ front.getLast?, tree.callDeclaration? (Model.build tree) before.ref
      = none) :
    Attempt.Gives ((ofTree tree settings).chainCalls last.ref) fun offered =>
    ∃ action, offered = some action ∧
      action.title = "Inline " ++ Temporary.counted (others.length + 1) ++ " into call chain" ∧
      action.result.IsProgram
      (Term.swap place.ref (.node place (make (front ++ statement :: back))) whole) := by
  have standsHolder := unit.stands.subterm within
  have listed := isList.children_of_stands standsHolder
  have onceInner : ((front ++
      ((temporary :: others).map (·.declaration) ++ last :: back)).flatMap refs).Nodup := by
    have onceInner := standsHolder.children.1.once
    rwa [isList.children_eq] at onceInner
  have held : last ∈ front ++ ((temporary :: others).map (·.declaration) ++ last :: back) := by simp
  have isSite : tree.statementOf last.ref = last.ref := by
    refine statementOf_of_isStatement ?_
    rw [Kind.isStatement_of_skeleton
      (unit.stands.shows (subterms_trans within (isList.mem_subterms held))).depicts.skeleton]
    exact isStatement
  have isHolder : tree.parent last.ref = place.ref :=
    unit.stands.parent within (isList.children_eq _ ▸ held)
  have present : place.ref.isSome :=
    Option.isSome_iff_ne_none.2 (standsHolder.hasRef (ref_mem_refs _)).ne_none
  have isStatements : tree.isStatementList place.ref :=
    (unit.stands.shows within).isStatementList.trans (isList.isList _)
  have isPosition :
      (tree.children place.ref).idxOf? last.ref = some (front.length + (others.length + 1)) := by
    have onceRefs := onceInner.sublist (roots_sublist _)
    rw [listed, List.idxOf?_eq_some_iff]
    refine ⟨by simp, by simp, fun position before same => Nat.ne_of_lt before ?_⟩
    exact (@List.Nodup.getElem_inj_iff Ref _ onceRefs _ (by simp; omega) _ (by simp)).1
      (same.trans (by simp))
  have links : tree.linksAt (Model.build tree) (tree.children place.ref)
      (front.length + (others.length + 1)) =
      (temporary :: others).map (·.link) := by
    have found := unit.leadingLinks_of_introduces isList within introduces once distinct fresh
      isCall noDeclaration
    have links := @linksAt_eq tree (Model.build tree) (front.map Term.ref) _ _ found (by simp)
      fun before isBefore => by
      rw [List.getLast?_map] at isBefore
      obtain ⟨term, isTerm, rfl⟩ := Option.map_eq_some_iff.1 isBefore
      exact alone term isTerm
    rw [listed, List.map_append]
    simpa using links
  have onceAll : ((temporary.declaration ::
      (others.map (·.declaration) ++ last :: back)).flatMap refs).Nodup :=
    onceInner.sublist (List.Sublist.flatMap (List.sublist_append_right front _) refs)
  obtain ⟨after, changed, program, -⟩ :=
    inline_isProgram unit.toIsProgram isList within (introduces.inlines once onceAll) (by simp)
  rw [chainCalls]
  have isTree : (ofTree tree settings).tree = tree := rfl
  simp only [isTree, isSite, isHolder, present, isStatements, isPosition, Bool.and_self, if_true]
  rw [chainCallsAt]
  have isModel : (ofTree tree settings).model = Model.build tree := rfl
  simp only [isTree, isModel, links]
  refine (offer_of_eq changed).mono fun offered isOffered => ⟨_, isOffered, ?_, program⟩
  simp

end

section

variable {tree result : Tree} {settings settings' : Settings}
  {whole statement call rest term : Outline} {ref : Ref} {calls : List Ref}
  {temporaries : List Introduced} {front back : List Outline} {place : Place}
  {make : List Outline → Form Place}

/-- Where temporaries were introduced under new names for a statement of a list, they are in
front of the statement, and inlining is offered there and gives the program in which they were
introduced. -/
theorem UnchainsAt.restored (unchains : UnchainsAt
      (ofTree tree settings) whole ref result statement call rest term calls temporaries)
    (unit : tree.IsUnit whole) (isList : IsListForm make)
    (isHolder : .node place (make (front ++ statement :: back)) ∈ whole.subterms)
    (noDeclaration : ∀ type declarators, statement.kind ≠ .localDecl type declarators)
    (isStatement : statement.kind.isStatement)
    (alone : ∀ before ∈ front.getLast?, ∀ name, ¬tree.DeclaresCall name before.ref)
    (distinct : (temporaries.map (·.name)).Nodup)
    (fresh : AreFresh temporaries (front ++ statement :: back)) :
    result.children place.ref =
    (front ++ (temporaries.map (·.declaration) ++ rest :: back)).map Term.ref ∧
      List.Forall₂ result.DeclaresCall (temporaries.map (·.name))
        (temporaries.map (·.declaration.ref)) ∧
      ∃ chain, (ofTree result settings').offered? .chainCalls rest.ref = .ok (some chain) ∧
        chain.title = "Inline " ++ Temporary.counted temporaries.length ++ " into call chain" ∧
        chain.result.IsProgram whole := by
  have once := (unit.stands.subterm unchains.within).once
  have introduces := unchains.introduces
  have long : 2 ≤ calls.length := by
    obtain ⟨ref, -, found⟩ := List.exists_of_findSome?_eq_some unchains.isChain
    simpa using (Option.filter_eq_some_iff.1 found).2
  have count : temporaries.length = calls.length - 1 := by
    rw [← List.length_map (·.name), unchains.areNamed, NameScope.length_pickMany]
  obtain ⟨temporary, others, rfl⟩ :=
    List.exists_cons_of_length_pos (show 0 < temporaries.length by omega)
  have isCall : CallsMember call := by
    have inside : call ∈ whole.subterms := by
      cases introduces with
      | step _ made first =>
        exact subterms_trans unchains.within (made.first.trans first).mem_subterms
    exact (callsMember_iff (unit.stands.subterm inside).shown).1 unchains.isCalled
  -- The result is a unit with the declarations in the list.
  obtain rfl := unchains.becomes.eq_of_isList unit.toIsProgram isList isHolder
  have inPlace := isList.all_inPlace_iff.1 (unit.inPlace.subterm isHolder)
  have unit' :=
    unit.swap_list isList isHolder unchains.program (introduces.all_inPlace_list once inPlace)
  have within := @mem_subterms_swap
    (.node place (make (front ++ ((temporary :: others).map (·.declaration) ++ rest :: back))))
    whole _ unit.stands.once isHolder
  have stands := unit'.stands.subterm within
  have isChild {term : Outline}
      (held : term ∈ front ++ ((temporary :: others).map (·.declaration) ++ rest :: back)) :
      result.Stands term := stands.subterm (isList.mem_subterms held)
  have skeleton := introduces.skeleton once
  have chains : Attempt.Gives ((ofTree result settings').attempt .chainCalls rest.ref) _ :=
    @chainCalls_of_introduces _ settings' _ _ _
    _ _ _ _ _ _ _ unit' isList within introduces once distinct fresh isCall ?isStatement
      ?noDeclaration ?alone
  case isStatement => rwa [Kind.isStatement_of_skeleton skeleton]
  case noDeclaration =>
    intro type declarators isDeclaration
    rw [isDeclaration] at skeleton
    cases isKind : statement.kind <;> rw [isKind] at skeleton <;> cases skeleton
    exact noDeclaration _ _ isKind
  case alone =>
    intro before isBefore
    have inFront : before ∈ front := List.mem_of_getLast? isBefore
    have stood :=
      (unit.stands.subterm isHolder).subterm (isList.mem_subterms (List.mem_append_left _ inFront))
    exact callDeclaration?_eq_none stood.shown (isChild (List.mem_append_left _ inFront)).shown
      (alone before isBefore)
  refine ⟨isList.children_of_stands stands, ?_, ?_⟩
  · refine List.forall₂_map_left_iff.2
      (List.forall₂_map_right_iff.2 (List.forall₂_same.2 fun other member => ?_))
    have standsOther :=
      isChild (List.mem_append_right _ (List.mem_append_left _ (List.mem_map_of_mem member)))
    have standsValue := standsOther.subterm other.first_value.mem_subterms
    exact declaresCall_of_form standsOther.shown other.isDeclaration other.isDeclarator
      ((callsMember_iff standsValue.shown).2 (introduces.callsMember once isCall other member))
  · obtain ⟨chain, isOffered, isTitle, isProgram⟩ := offered?_of_gives chains
    refine ⟨chain, isOffered, isTitle, ?_⟩
    have restored : Term.swap place.ref (.node place (make (front ++ statement :: back)))
        (Term.swap place.ref _ whole) = whole :=
      (swap_swap_self unit.stands.once isHolder unit'.stands.once).trans
      (swap_eq_self unit.stands.once isHolder)
    rwa [restored] at isProgram

end

/-- Inlining restores what introducing temporaries has taken apart. Where temporaries are offered
for an expression statement or a `return` in a list of statements, the statement in front of it is
no declaration of what could be inlined as well, and the names that are picked are different ones
and new to the list, each temporary is declared in front of the statement with a call of a member,
and inlining is offered at the statement in the result. It takes these declarations back and no
others, and leaves the program that there was. -/
theorem chainCalls_of_unchainCalls {tree : Tree} {settings settings' : Settings} {statement : Ref}
    {calls : List Ref}
    {names : List String} {unchain : Action} (wellFormed : tree.WellFormed) (sorted : tree.IsSorted)
    (attached : statement ∈ tree.attached)
    (isSite : ∃ value, tree.kind statement = .exprStmt value ∨
      tree.kind statement = .returnStmt value)
    (listed : tree.isStatementList (tree.parent statement) = true)
    (alone : ∀ front before back, tree.children (tree.parent statement)
      = front ++ before :: statement :: back → ∀ name, ¬tree.DeclaresCall name before)
    (isChain : tree.callChain? statement = some calls)
    (areNames : ((ofTree tree settings).namesAt statement).pickMany settings.temporary
      (calls.length - 1) = names)
    (distinct : names.Nodup) (fresh : ∀ name ∈ names, name ∉ tree.namesIn (tree.parent statement))
    (offered : (ofTree tree settings).offered? .unchainCalls statement = .ok (some unchain)) :
    ∃ front declarations back chain, tree.children (tree.parent statement) =
    front ++ statement :: back ∧
      unchain.result.children (tree.parent statement) = front ++ declarations ++ statement :: back ∧
      List.Forall₂ unchain.result.DeclaresCall names declarations ∧
      (ofTree unchain.result settings').offered? .chainCalls statement = .ok (some chain) ∧
      chain.title = "Inline " ++ Temporary.counted names.length ++ " into call chain" ∧
      chain.result.children (tree.parent statement) = front ++ statement :: back ∧
      chain.result.outline chain.result.root = tree.outline tree.root ∧
      chain.result.shape = tree.shape := by
  obtain ⟨whole, unit⟩ := sorted.exists_isUnit wellFormed
  rw [unit.attached] at attached
  obtain ⟨site, within, rfl⟩ := mem_refs.1 attached
  have skeleton := (unit.stands.shows within).depicts.skeleton
  obtain ⟨place, make, front, back, isList, isHolder, atHolder⟩ :=
    unit.toIsProgram.exists_list within listed
  have standsHolder := unit.stands.subterm isHolder
  have children := isList.children_of_stands standsHolder
  rw [atHolder] at alone fresh ⊢
  have isStatement : site.kind.isStatement ∧
      ∀ type declarators, site.kind ≠ .localDecl type declarators := by
    obtain ⟨value, isSite | isSite⟩ := isSite
    all_goals
      rw [isSite] at skeleton
      cases isKind : site.kind <;> rw [isKind] at skeleton <;> cases skeleton
      exact ⟨rfl, fun _ _ isDeclaration => by cases isDeclaration⟩
  obtain ⟨isStatement, noDeclaration⟩ := isStatement
  -- What introducing temporaries has done at the statement.
  obtain ⟨statement, call, rest, term, calls', temporaries, unchains⟩ :=
    @of_offered _ .unchainCalls _ _ _
      (@unchainCalls_puts (ofTree tree settings) _ _ unit.toIsProgram attached).yields offered
  obtain rfl : statement = site := subterm_unique unit.stands.once unchains.within within
    (unchains.isSite.trans (statementOf_of_isStatement
      ((Kind.isStatement_of_skeleton skeleton).trans isStatement)))
  obtain rfl : calls' = calls := Option.some.inj (unchains.isChain.symm.trans isChain)
  have areNamed : temporaries.map (·.name) = names := unchains.areNamed.trans areNames
  subst areNamed
  have isFresh : AreFresh temporaries (front ++ statement :: back) := by
    intro temporary member term among part inside
    exact standsHolder.unnamed_of_namesIn (fresh _ (List.mem_map_of_mem member))
      (subterms_trans (isList.mem_subterms among) inside)
  have noOther : ∀ before ∈ front.getLast?, ∀ name, ¬tree.DeclaresCall name before.ref := by
    intro before isBefore
    obtain ⟨others, rfl⟩ := List.getLast?_eq_some_iff.1 isBefore
    exact alone _ _ (back.map Term.ref) (by simpa using children)
  obtain ⟨introduced, declares, chain, isOffered, isTitle, program⟩ :=
    @UnchainsAt.restored _ _ _ settings' _ _ _ _ _ _ _ _ _ _ _ _
    unchains unit isList isHolder noDeclaration isStatement noOther distinct isFresh
  have restored := isList.children_of_stands (program.stands.subterm isHolder)
  rw [unchains.same] at isOffered
  have same : chain.result.outline chain.result.root = tree.outline tree.root :=
    program.outline_root.trans unit.outline_root.symm
  refine ⟨front.map Term.ref, temporaries.map (·.declaration.ref), back.map Term.ref,
    chain, by simpa using children, ?_, declares,
    isOffered, ?_, by simpa using restored, same, congrArg Term.shape same⟩
  · simpa [unchains.same, Function.comp_def] using introduced
  · rw [isTitle, List.length_map]

/-- A chain of three calls comes back, with a test for null and arguments, behind a declaration and
in front of another statement. -/
theorem chainCalls_of_unchainCalls_of_three : ∃ tree unchain chain front declarations back,
    Tree.parse 0 "int d = q(); a?.F(b).G(c).H(e.I()); z();" = .ok tree ∧
      (ofTree tree {}).offered? .unchainCalls (some 20) = .ok (some unchain) ∧
      unchain.result.children tree.root = front ++ declarations ++ some 20 :: back ∧
      List.Forall₂ unchain.result.DeclaresCall ["newVar0", "newVar1"] declarations ∧
      (ofTree unchain.result {}).offered? .chainCalls (some 20) = .ok (some chain) ∧
      chain.title = "Inline " ++ Temporary.counted 2 ++ " into call chain" ∧
      chain.result.children tree.root = front ++ some 20 :: back ∧
      chain.result.outline chain.result.root = tree.outline tree.root ∧
      chain.result.shape = tree.shape := by
  have facts : (Tree.parse 0 "int d = q(); a?.F(b).G(c).H(e.I()); z();").toOption.any (fun tree =>
      some 20 ∈ tree.attached && tree.kind (some 20) = .exprStmt (some 19) && tree.parent (some 20)
        = tree.root &&
        tree.isStatementList tree.root && tree.children tree.root = [some 4, some 20, some 23] &&
        tree.callChain? (some 20) = some [some 9, some 13, some 19] &&
        ((ofTree tree {}).namesAt (some 20)).pickMany ({} : Settings).temporary 2
        = ["newVar0", "newVar1"] &&
        ["newVar0", "newVar1"].all (fun name => !(tree.namesIn tree.root).contains name) &&
        tree.kind (some 4) = .localDecl (some 0) ⟨0, 1⟩ && tree.items ⟨0, 1⟩ = [some 3] &&
        tree.kind (some 3) = .declarator "d" (some 2) && tree.calledMember? (some 2) = none &&
        ((ofTree tree {}).offered? .unchainCalls (some 20)).toOption.any Option.isSome) = true := by
    decide +kernel
  obtain ⟨tree, parsed, facts⟩ := exists_of_any facts
  simp only [Bool.and_eq_true, decide_eq_true_eq] at facts
  obtain ⟨⟨⟨⟨⟨⟨⟨⟨⟨⟨⟨⟨attached, isSite⟩, isRoot⟩, listed⟩, children⟩, isChain⟩, areNames⟩, fresh⟩,
    isDeclaration⟩, declares⟩, isDeclarator⟩, notCalled⟩, isOffered⟩ := facts
  obtain ⟨offered, isOffered, isSome⟩ := (Option.any_eq_true _ _).1 isOffered
  obtain ⟨unchain, rfl⟩ := Option.isSome_iff_exists.1 isSome
  have offered := eq_ok_of_toOption isOffered
  -- What is in front of the statement declares a call, but not one of a member.
  have alone : ∀ front before back, tree.children (tree.parent (some 20))
      = front ++ before :: some 20 :: back →
      ∀ name, ¬tree.DeclaresCall name before := by
    rintro front before back split name
      ⟨type, declarators, declarator, value, isKind, entries, isKindDeclarator, isCalled⟩
    rw [isRoot, children] at split
    obtain rfl : before = some 4 := by
      rcases front with _ | ⟨first, _ | ⟨second, front⟩⟩
      · exact (List.cons.inj split).1.symm
      · simp at split
      · have long := congrArg List.length split
        simp at long
        omega
    obtain ⟨rfl, rfl⟩ := Kind.localDecl.inj (isDeclaration.symm.trans isKind)
    obtain rfl := (List.cons.inj (declares.symm.trans entries)).1
    obtain ⟨rfl, rfl⟩ := Kind.declarator.inj (isDeclarator.symm.trans isKindDeclarator)
    simp [notCalled] at isCalled
  obtain ⟨front, declarations, back, chain, -, found⟩ :=
    @chainCalls_of_unchainCalls tree {} {} (some 20) _ _ unchain (wellFormed_of_parse parsed)
      (isSorted_of_parse parsed) attached ⟨_, .inl isSite⟩ (isRoot ▸ listed) alone isChain areNames
      (by decide) (by simpa [isRoot] using fresh) offered
  rw [isRoot] at found
  exact ⟨tree, unchain, chain, front, declarations, back, parsed, offered, found⟩

end Context

end Refactory
