import Refactory.Proofs.Model.Locals
import Refactory.Proofs.Refactoring.Reinlining

/-!
# Finding what was introduced

Temporaries that were introduced for the calls of a chain are the run that is found in front of the
statement (`Tree.IsUnit.leadingLinks_of_introduces`). Each has a new name, so in its list just its
use refers to it (`Tree.IsUnit.exists_symbol_of_introduces`), and a member is called on that in
front of all else that follows. A run that started earlier would go through the statement in front
(`Tree.linksAt_eq`).
-/
namespace Refactory

open Term

/-- A node with a list of statements declares no name itself. -/
theorem Kind.declaredName?_of_isList {one many : Type} {kind : Kind one many}
    (isList : kind.isList = true) :
    kind.declaredName? = none := by
  cases kind <;> first | rfl | cases isList

namespace Tree

section

variable {tree : Tree} {model : Model} {whole use next consumer : Outline} {later : List Outline}
  {symbol : SymbolId} {name : String}

/-- What a member is called on is found to be called. -/
theorem Stands.isCalledReceiver (stands : tree.Stands next)
    (made : MadeOn use next) : tree.isCalledReceiver use.ref = true := by
  obtain ⟨access, arguments, member, conditional, isCall, isAccess⟩ := made
  have held : access ∈ next.children := by simp [Term.children, isCall, parts]
  have heldUse : use ∈ access.children := by simp [Term.children, isAccess, parts]
  have within := child_mem_subterms held
  obtain ⟨range, isKindCall, -⟩ := (isCall ▸ stands.shown.here.depicts).of_invoke
  have isKindAccess := (isAccess ▸ (stands.shows within).depicts).of_member
  obtain ⟨number, -, place⟩ := stands.hasRef (mem_refs.2 ⟨access, within, rfl⟩)
  obtain ⟨top, -, placeTop⟩ := stands.hasRef (ref_mem_refs next)
  rw [Tree.isCalledReceiver, stands.parent within heldUse, place]
  dsimp only
  rw [← place, isKindAccess, stands.parent (self_mem_subterms next) held, placeTop]
  dsimp only
  rw [← placeTop, isKindCall]
  simp

/-- A call on a name starts from the name. -/
theorem Stands.spineRoot (stands : tree.Stands next) (made : MadeOn use next)
    (isName : use.kind = .ident name) :
    tree.spineRoot next.ref = use.ref := by
  obtain ⟨access, arguments, member, conditional, isCall, isAccess⟩ := made
  have held : access ∈ next.children := by simp [Term.children, isCall, parts]
  have heldUse : use ∈ access.children := by simp [Term.children, isAccess, parts]
  obtain ⟨range, isKindCall, -⟩ := (isCall ▸ stands.shown.here.depicts).of_invoke
  have isKindAccess := (isAccess ▸ (stands.shown.child held).here.depicts).of_member
  have isKindUse := (isName ▸ ((stands.shown.child held).child heldUse).here.depicts).of_ident
  obtain ⟨bound, enough⟩ : ∃ bound, tree.depthBound = bound + 3 := by
    have shorter := length_subterms_lt held
    have shortest := length_subterms_lt heldUse
    have fits := stands.length_le
    exact ⟨tree.size - 2, by rw [depthBound]; omega⟩
  rw [Tree.spineRoot, enough, spineRootWithin, isKindCall]
  dsimp only
  rw [refOf_some, spineRootWithin, isKindAccess]
  dsimp only
  rw [refOf_some, spineRootWithin, isKindUse]

/-- The only name that refers to a variable is found to be its sole use where a member is called on
it in front of all else. -/
theorem IsProgram.soleReceiverUse?_eq (program : tree.IsProgram whole)
    (within : ∀ other ∈ consumer :: later, other ∈ whole.subterms)
    (once : ((consumer :: later).flatMap refs).Nodup) (made : MadeOn use next)
    (first : First use consumer)
    (inside : next ∈ whole.subterms)
    (refers : ∀ other ∈ consumer :: later, ∀ part ∈ other.subterms, model.symbolOf part.ref
      = some symbol ↔ part = use) :
    tree.soleReceiverUse? model symbol ((consumer :: later).map Term.ref) = some use.ref := by
  have isConsumer := within consumer (.head _)
  have isUse := subterms_trans isConsumer first.mem_subterms
  have below : ((consumer :: later).map Term.ref).flatMap tree.descendants
      = (consumer :: later).flatMap refs := by
    rw [List.flatMap_map]
    exact List.flatMap_congr fun other member =>
      (program.stands.subterm (within other member)).descendants
  have useWithin : use.ref ∈ (consumer :: later).flatMap refs :=
    List.mem_flatMap.2 ⟨consumer, .head _, mem_refs.2 ⟨use, first.mem_subterms, rfl⟩⟩
  have only : ((consumer :: later).flatMap refs).filter (model.symbolOf · == some symbol)
      = [use.ref] := by
    have same : ∀ ref ∈ (consumer :: later).flatMap refs, (model.symbolOf ref == some symbol)
        = (ref == use.ref) := by
      intro ref member
      obtain ⟨other, isOther, below⟩ := List.mem_flatMap.1 member
      obtain ⟨part, inside, rfl⟩ := mem_refs.1 below
      rw [Bool.eq_iff_iff, beq_iff_eq, beq_iff_eq, refers other isOther part inside]
      exact ⟨congrArg Term.ref,
        subterm_unique program.stands.once (subterms_trans (within other isOther) inside) isUse⟩
    rw [List.filter_congr same, List.filter_beq, List.count_eq_one_of_mem once useWithin,
      List.replicate_one]
  rw [List.map_cons, soleReceiverUse?, ← List.map_cons, below, only]
  simp only [(program.isWithin_iff isUse isConsumer).2 first.mem_subterms,
    (program.isEvaluatedFirst_iff isUse isConsumer).2 first,
    (program.stands.subterm inside).isCalledReceiver made, Bool.and_self, if_true]

end

section

variable {tree : Tree} {model : Model} {statements front others : List Ref} {position : Nat}
  {links : List Link}

/-- Each temporary that is found after a first one is declared by the statement in its position. -/
theorem exists_of_linksFrom {temporary : CallDeclaration}
    (long : position + 1 < (tree.linksFrom model temporary statements).length) :
    ∃ statement ∈ statements[position]?, (tree.callDeclaration? model statement).isSome := by
  induction statements generalizing temporary position with
  | nil => simp [linksFrom] at long
  | cons consumer later ih =>
    rw [linksFrom] at long
    split at long
    · simp at long
    · split at long
      · rename_i next found
        split at long
        · cases position with
          | zero => exact ⟨consumer, rfl, by rw [found]; rfl⟩
          | succ position => simpa using ih (Nat.lt_of_succ_lt_succ long)
        · simp at long
      · simp at long

/-- Each temporary that is found at the front of some statements is declared by the statement in its
position. -/
theorem exists_of_leadingLinks (long : position < (tree.leadingLinks model statements).length) :
    ∃ statement ∈ statements[position]?, (tree.callDeclaration? model statement).isSome := by
  cases statements with
  | nil => simp [leadingLinks] at long
  | cons statement later =>
    rw [leadingLinks] at long
    split at long
    · rename_i temporary found
      cases position with
      | zero => exact ⟨statement, rfl, by rw [found]; rfl⟩
      | succ position => simpa using exists_of_linksFrom long
    · simp at long

/-- The temporaries from a statement on are those that are found behind the last of them, where the
statement in front of all declares none. -/
theorem linksAt_eq (found : tree.leadingLinks model others = links) (some : links ≠ [])
    (alone : ∀ before ∈ front.getLast?, tree.callDeclaration? model before = none) :
    tree.linksAt model (front ++ others) (front.length + links.length) = links := by
  rw [linksAt, Nat.add_assoc, List.range_add, List.range_succ_eq_map, List.map_cons,
    List.findSome?_append, List.findSome?_eq_none_iff.2 fun start isStart =>
    ?earlier, Option.none_or, List.findSome?_cons]
  case earlier =>
    have before := List.mem_range.1 isStart
    refine if_neg fun reaches => ?_
    -- Links that reach this far go through the statement in front of all.
    simp only [Bool.and_eq_true, decide_eq_true_eq] at reaches
    have positive := List.length_pos_iff.2 some
    obtain ⟨statement, isStatement, declares⟩ :=
      @exists_of_leadingLinks tree model _ (front.length - 1 - start)
        (show _ < (tree.leadingLinks model ((front ++ others).drop start)).length by omega)
    rw [List.getElem?_drop, List.getElem?_append_left (by omega),
      show start + (front.length - 1 - start) = front.length - 1 by
        omega, ← List.getLast?_eq_getElem?] at isStatement
    rw [alone statement isStatement] at declares
    cases declares
  · simp [found, some]

end

section

variable {tree : Tree} {model : Model} {whole call statement last : Outline}
  {temporary : Introduced} {others : List Introduced} {back : List Outline} {symbol : SymbolId}

/-- Temporaries that were introduced are found from the first one on, where each is what its use
refers to and nothing else. -/
theorem IsProgram.linksFrom_of_introduces (program : tree.IsProgram whole)
    (introduces : Introduces (temporary :: others) call statement last)
    (once : statement.refs.Nodup)
    (within : ∀ term ∈ others.map (·.declaration) ++ last :: back, term ∈ whole.subterms)
    (onceAll : ((others.map (·.declaration) ++ last :: back).flatMap refs).Nodup)
    (refers : ∀ other ∈ temporary :: others, ∃ symbol, model.declaredSymbol other.declarator.ref
      = some symbol ∧ ∀ term ∈ others.map (·.declaration) ++ last :: back, ∀ part ∈ term.subterms,
        model.symbolOf part.ref = some symbol ↔ part = other.use)
    (declares : model.declaredSymbol temporary.declarator.ref = some symbol)
    (noDeclaration : ∀ type declarators, last.kind ≠ .localDecl type declarators) :
    tree.linksFrom model ⟨temporary.declaration.ref, symbol, temporary.value.ref⟩
      ((others.map (·.declaration) ++ last :: back).map Term.ref)
        = (temporary :: others).map (·.link) := by
  induction others generalizing temporary call statement symbol with
  | nil =>
    obtain ⟨_, declares', refers⟩ := refers temporary (.head _)
    obtain rfl := Option.some.inj (declares'.symm.trans declares)
    cases introduces with
    | @step _ _ _ next _ _ isValue made first fresh rest =>
      cases rest
      obtain ⟨used, firstUsed⟩ := made.first_use first once temporary.use
      have isLast := within _ (.head _)
      have none : tree.callDeclaration? model (Term.swap call.ref temporary.use statement).ref
          = Option.none := by
        cases found : tree.callDeclaration? model
          (Term.swap call.ref temporary.use statement).ref with
        | none => rfl
        | some _ =>
          obtain ⟨type, _, ⟨_, _, form, -⟩, -⟩ :=
            callDeclaration?_eq_some (program.stands.subterm isLast).shown found
          exact absurd form (noDeclaration _ _)
      have isUse := program.soleReceiverUse?_eq within onceAll used (used.first.trans firstUsed)
        (subterms_trans isLast firstUsed.mem_subterms) refers
      rw [List.map_nil, List.nil_append, List.map_cons, linksFrom]
      rw [List.map_cons] at isUse
      rw [isUse]
      dsimp only
      rw [none]
      rfl
  | cons following others ih =>
    obtain ⟨_, declares', refersTo⟩ := refers temporary (.head _)
    obtain rfl := Option.some.inj (declares'.symm.trans declares)
    obtain ⟨_, declaresNext, -⟩ := refers following (.tail _ (.head _))
    simp only [List.map_cons, List.cons_append] at within onceAll refersTo ⊢
    cases introduces with
    | @step _ _ _ next _ _ isValue made first fresh rest =>
      have others := rest
      cases rest with
      | step isNextValue =>
        obtain ⟨used, -⟩ := made.first_use first once temporary.use
        rw [← isNextValue] at used
        have isFollowing := within _ (.head _)
        have standsFollowing := program.stands.subterm isFollowing
        have firstValue := following.first_value
        have standsValue := standsFollowing.subterm firstValue.mem_subterms
        obtain ⟨_, _, _, _, isCall, isAccess⟩ := id used
        have isUse := program.soleReceiverUse?_eq within onceAll used (used.first.trans firstValue)
          (subterms_trans isFollowing firstValue.mem_subterms) refersTo
        have isNext := callDeclaration?_of_form standsFollowing.shown
          following.isDeclaration following.isDeclarator (Option.isSome_iff_exists.2
          ⟨_, calledMember?_of_form standsValue.shown isCall isAccess⟩) declaresNext
        rw [List.map_cons] at isUse
        rw [linksFrom, isUse]
        dsimp only
        rw [isNext]
        dsimp only
        rw [if_pos (standsValue.spineRoot used temporary.isUse), ih others
          (temporary.nodup_swap once (made.first.trans first).mem_subterms fresh)
          (fun term member => within term (.tail _ member))
          (List.nodup_append'.1 onceAll).2.1 (fun other member => ?_) declaresNext]
        · rfl
        · obtain ⟨symbol, declares, refersTo⟩ := refers other (.tail _ member)
          exact ⟨symbol, declares, fun term below => refersTo term (.tail _ below)⟩

end

end Tree

namespace Term

open Refactory.Tree

/-- A call is one of a member. -/
def CallsMember (call : Outline) : Prop :=
  ∃ access receiver arguments name conditional, call.kind = .invoke (some access) arguments ∧
    access.kind = .member receiver name conditional

/-- No name of a temporary occurs in some statements. -/
def AreFresh (temporaries : List Introduced) (statements : List Outline) : Prop :=
  ∀ temporary ∈ temporaries, ∀ statement ∈ statements, ∀ part ∈ statement.subterms,
    part.kind ≠ .ident temporary.name ∧ part.kind.declaredName? ≠ some temporary.name

section

variable {temporary : Introduced} {temporaries : List Introduced}
  {call statement last part : Outline} {front back : List Outline} {place : Place}
  {make : List Outline → Form Place}

/-- A part of a list in which temporaries were introduced is the list, or it is in a statement that
was there or in one that was made. -/
theorem cases_of_mem_list (isList : IsListForm make) (inside : part ∈
      subterms (.node place (make (front ++ (temporaries.map (·.declaration) ++ last :: back))))) :
    part.kind.isList = true ∨ (∃ term ∈ front ++ statement :: back, part ∈ term.subterms) ∨
      ∃ term ∈ temporaries.map (·.declaration) ++ [last], part ∈ term.subterms := by
  rw [subterms_node, isList.parts_eq] at inside
  rcases List.mem_cons.1 inside with rfl | inside
  · exact .inl (isList.isList _)
  · obtain ⟨term, among, below⟩ := List.mem_flatMap.1 inside
    rw [List.mem_append, List.mem_append, List.mem_cons] at among
    rcases among with inFront | isMade | rfl | inBack
    · exact .inr (.inl ⟨term, List.mem_append_left _ inFront, below⟩)
    · exact .inr (.inr ⟨term, List.mem_append_left _ isMade, below⟩)
    · exact .inr (.inr ⟨_, by simp, below⟩)
    · exact .inr (.inl ⟨term, List.mem_append_right _ (.tail _ inBack), below⟩)

section

variable (introduces : Introduces temporaries call statement last) (once : statement.refs.Nodup)
  (isList : IsListForm make) (distinct : (temporaries.map (·.name)).Nodup)
  (fresh : AreFresh temporaries (front ++ statement :: back)) (member : temporary ∈ temporaries)
  (inside : part ∈
    subterms (.node place (make (front ++ (temporaries.map (·.declaration) ++ last :: back)))))

include introduces once isList distinct fresh member inside

/-- In a list in which temporaries were introduced a name that is spelled like a temporary is its
use. -/
theorem Introduces.eq_use (isName : part.kind = .ident temporary.name) : part = temporary.use := by
  rcases cases_of_mem_list isList inside with isHolder | ⟨term, kept, below⟩ | ⟨term, made, below⟩
  · rw [isName] at isHolder
    cases isHolder
  · exact absurd isName (fresh temporary member term kept part below).1
  · rcases introduces.cases_of_ident once made below isName with before | ⟨other, isOther, rfl⟩
    · exact absurd isName (fresh temporary member statement (by simp) part before).1
    · rw [other.isUse] at isName
      rw [List.inj_on_of_nodup_map distinct isOther member (Kind.ident.inj isName)]

/-- In a list in which temporaries were introduced only the declarator of a temporary declares its
name. -/
theorem Introduces.eq_declarator (declares : part.kind.declaredName? = some temporary.name) :
    part = temporary.declarator := by
  rcases cases_of_mem_list isList inside with isHolder | ⟨term, kept, below⟩ | ⟨term, made, below⟩
  · rw [Kind.declaredName?_of_isList isHolder] at declares
    cases declares
  · exact absurd declares (fresh temporary member term kept part below).2
  · rcases introduces.cases_of_declares once made below declares
      with ⟨other, before, declares⟩ | ⟨other, isOther, rfl⟩
    · exact absurd declares (fresh temporary member statement (by simp) other before).2
    · rw [other.isDeclarator] at declares
      rw [List.inj_on_of_nodup_map distinct isOther member (Option.some.inj declares)]

end

end

end Term

namespace Tree

section

variable {tree : Tree} {whole call statement last : Outline} {temporary : Introduced}
  {temporaries others : List Introduced} {front back : List Outline} {place : Place}
  {make : List Outline → Form Place}

/-- A temporary that was introduced under a new name has a symbol, and in the list just its use
refers to that. -/
theorem IsUnit.exists_symbol_of_introduces (unit : tree.IsUnit whole) (isList : IsListForm make)
    (within : .node place (make (front ++ (temporaries.map (·.declaration) ++ last :: back))) ∈
      whole.subterms)
    (introduces : Introduces temporaries call statement last) (once : statement.refs.Nodup)
    (distinct : (temporaries.map (·.name)).Nodup)
    (fresh : AreFresh temporaries (front ++ statement :: back)) (member : temporary ∈ temporaries) :
    ∃ symbol, (Model.build tree).declaredSymbol temporary.declarator.ref = some symbol ∧
      ∀ term ∈ temporaries.map (·.declaration) ++ last :: back, ∀ part ∈ term.subterms,
        (Model.build tree).symbolOf part.ref = some symbol ↔ part = temporary.use := by
  have declaresOnly : DeclaresOnly temporary.declarator temporary.name
      (.node place (make (front ++ (temporaries.map (·.declaration) ++ last :: back)))) :=
    ⟨by rw [temporary.isDeclarator]; rfl, fun part inside =>
      introduces.eq_declarator once isList distinct fresh member inside⟩
  have isStatement : temporary.declaration ∈
      parts (make (front ++ (temporaries.map (·.declaration) ++ last :: back))) := by
    rw [isList.parts_eq]
    exact List.mem_append_right _ (List.mem_append_left _ (List.mem_map_of_mem member))
  have isLocal : temporary.declarator ∈ temporary.declaration.declarators := by
    rw [Term.declarators, temporary.isDeclaration]
    exact .head _
  obtain ⟨symbol, declares, refers⟩ :=
    unit.exists_symbol_of_local within declaresOnly (isList.isList _) isStatement isLocal
  refine ⟨symbol, declares, fun term held part below => ?_⟩
  have inside : part ∈ subterms
      (.node place (make (front ++ (temporaries.map (·.declaration) ++ last :: back)))) := by
    rw [subterms_node, isList.parts_eq]
    exact .tail _ (List.mem_flatMap.2 ⟨term, List.mem_append_right _ held, below⟩)
  rw [refers part inside]
  refine ⟨introduces.eq_use once isList distinct fresh member inside, ?_⟩
  rintro rfl
  exact temporary.isUse

/-- Temporaries that were introduced under new names are found from the first declaration on. -/
theorem IsUnit.leadingLinks_of_introduces (unit : tree.IsUnit whole) (isList : IsListForm make)
    (within : .node place (make
      (front ++ ((temporary :: others).map (·.declaration) ++ last :: back))) ∈ whole.subterms)
    (introduces : Introduces (temporary :: others) call statement last)
    (once : statement.refs.Nodup) (distinct : ((temporary :: others).map (·.name)).Nodup)
    (fresh : AreFresh (temporary :: others) (front ++ statement :: back))
    (isCall : CallsMember call)
    (noDeclaration : ∀ type declarators, last.kind ≠ .localDecl type declarators) :
    tree.leadingLinks (Model.build tree)
    (((temporary :: others).map (·.declaration) ++ last :: back).map Term.ref) =
      (temporary :: others).map (·.link) := by
  have isChild {term : Outline}
      (held : term ∈ (temporary :: others).map (·.declaration) ++ last :: back) :
      term ∈ whole.subterms :=
    subterms_trans within (isList.mem_subterms (List.mem_append_right _ held))
  have onceAll : ((front ++
      ((temporary :: others).map (·.declaration) ++ last :: back)).flatMap refs).Nodup := by
    have onceInner := (unit.stands.subterm within).children.1.once
    rwa [isList.children_eq] at onceInner
  have refers (other : Introduced) (member : other ∈ temporary :: others) :=
    unit.exists_symbol_of_introduces isList within introduces once distinct fresh member
  obtain ⟨symbol, declares, -⟩ := refers temporary (.head _)
  have stands := unit.stands.subterm (isChild (.head _))
  have isValue : temporary.value = call := by cases introduces; assumption
  obtain ⟨access, receiver, arguments, name, conditional, form, formAccess⟩ := isCall
  have isCalled := calledMember?_of_form (stands.subterm temporary.first_value.mem_subterms).shown
    (isValue ▸ form) formAccess
  have found := callDeclaration?_of_form stands.shown temporary.isDeclaration temporary.isDeclarator
    (Option.isSome_iff_exists.2 ⟨_, isCalled⟩) declares
  rw [List.map_cons, List.cons_append, List.map_cons, leadingLinks, found]
  refine unit.toIsProgram.linksFrom_of_introduces introduces once
    (fun term held => isChild (.tail _ held)) ?_
    (fun other member => ?_) declares noDeclaration
  · exact onceAll.sublist (List.Sublist.flatMap
      ((List.sublist_cons_self _ _).trans (List.sublist_append_right front _)) refs)
  · obtain ⟨symbol, declares, refersTo⟩ := refers other member
    exact ⟨symbol, declares, fun term held => refersTo term (.tail _ held)⟩

end

end Tree

end Refactory
