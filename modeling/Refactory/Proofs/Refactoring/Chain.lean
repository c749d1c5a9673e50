import Refactory.Proofs.Code.Call
import Refactory.Proofs.Code.Hoisting
import Refactory.Proofs.Code.Placing
import Refactory.Proofs.Refactoring.Attempt

/-!
# Inlining temporaries

Each temporary of a run is declared by a statement and used in the next one. Its value comes in the
place of the use (`Term.Inlines`), and the values of the later temporaries grow on the way. What
comes out at last stands in the statement list without the declarations
(`Context.chainCalls_gives`).
-/
namespace Refactory

variable {model : Model}

namespace Term

/-- A statement declares one variable of a type with a value. -/
def Declares (type : Option Outline) (value statement : Outline) : Prop :=
  ∃ declarator name, statement.kind = .localDecl type [declarator] ∧
    declarator.kind = .declarator name (some value)

namespace Declares

variable {type : Option Outline} {value statement part : Outline}

/-- The declared value is below the statement. -/
theorem exists_declarator (declares : Declares type value statement) :
    ∃ declarator ∈ statement.children, value ∈ declarator.children := by
  obtain ⟨declarator, name, form, formDeclarator⟩ := declares
  exact ⟨declarator, by simp [Term.children, form, parts], by simp [Term.children,
    formDeclarator, parts]⟩

theorem mem_subterms (declares : Declares type value statement) : value ∈ statement.subterms := by
  obtain ⟨declarator, isChild, held⟩ := declares.exists_declarator
  exact mem_subterms_of_child isChild (child_mem_subterms held)

theorem refs_subset_innerRefs (declares : Declares type value statement) :
    value.refs ⊆ statement.innerRefs := by
  obtain ⟨declarator, isChild, held⟩ := declares.exists_declarator
  exact fun ref inside =>
    mem_innerRefs.2 ⟨declarator, isChild, refs_subset (child_mem_subterms held) inside⟩

/-- No place occurs twice when a declaration is gone and its value is in the place of a use in the
next statement. -/
theorem nodup_inline {use consumer : Outline} {later : List Outline}
    (declares : Declares type value statement) (isUse : use ∈ consumer.subterms)
    (once : ((statement :: consumer :: later).flatMap refs).Nodup) :
    ((Term.swap use.ref value consumer :: later).flatMap refs).Nodup := by
  rw [List.flatMap_cons, List.flatMap_cons] at once
  obtain ⟨onceFirst, onceOthers, apart⟩ := List.nodup_append'.1 once
  obtain ⟨onceConsumer, onceLater, apartLater⟩ := List.nodup_append'.1 onceOthers
  have inFirst : value.refs ⊆ statement.refs := refs_subset declares.mem_subterms
  refine List.nodup_append'.2
    ⟨nodup_refs_swap onceConsumer isUse (onceFirst.sublist (refs_sublist declares.mem_subterms))
    fun ref inside inConsumer => absurd (List.mem_append_left _ inConsumer)
    (apart (inFirst inside)), onceLater, fun ref inside inLater => ?_⟩
  rcases (mem_refs_swap onceConsumer isUse).1 inside with ⟨inConsumer, -⟩ | inValue
  · exact apartLater inConsumer inLater
  · exact apart (inFirst inValue) (List.mem_append_right _ inLater)

/-- A declaration goes on to declare its value when something below that is swapped. -/
theorem swap (declares : Declares type value statement) (once : statement.refs.Nodup)
    (inside : part ∈ value.subterms) (new : Outline) :
    Declares type (Term.swap part.ref new value) (Term.swap part.ref new statement) := by
  obtain ⟨declarator, name, form, formDeclarator⟩ := declares
  rcases statement with ⟨place, _⟩
  obtain rfl := form
  rcases declarator with ⟨declaratorPlace, _⟩
  obtain rfl := formDeclarator
  set declarator : Outline := .node declaratorPlace (.declarator name (some value))
  have isValue : value ∈ declarator.children := by
    simp [declarator, Term.children, Term.kind, parts]
  have isDeclarator : declarator ∈ Term.children (.node place (.localDecl type [declarator])) := by
    simp [Term.children, Term.kind, parts]
  have split : parts (.localDecl type [declarator]) = type.toList ++ declarator :: [] := by
    simp [parts]
  have splitDeclarator : parts (.declarator name (some value)) = [] ++ value :: [] := by
    simp [parts]
  have onceDeclarator := once.sublist (refs_sublist (child_mem_subterms isDeclarator))
  obtain ⟨swapped, splits⟩ := swap_split new once split (mem_subterms_of_child isValue inside)
  obtain ⟨swappedDeclarator, -⟩ := swap_split new onceDeclarator splitDeclarator inside
  have sameType : type.map (Term.swap part.ref new) = type := by
    have same : (type.map (Term.swap part.ref new)).toList = type.toList := by
      refine List.append_inj_left' (Eq.trans ?_ splits) rfl
      simp [parts]
    exact Option.ext fun term => by rw [← Option.mem_toList, same, Option.mem_toList]
  refine ⟨Term.swap part.ref new declarator, name, ?_, ?_⟩
  · rw [swapped]
    exact congrArg (Kind.localDecl · [Term.swap part.ref new declarator]) sameType
  · rw [swappedDeclarator]
    rfl

end Declares

/-- Temporaries are inlined, each of them declared by the first of some statements and used in the
next one. -/
inductive Inlines (plain : Outline → Prop) :
    List Link → Outline → List Outline → Outline → List Outline → Prop
  /-- No temporary is left. -/
  | done {statement : Outline} {rest : List Outline} : Inlines plain
    [] statement rest statement rest
  /-- The value of the first temporary comes in the place of its use. -/
  | step {links : List Link} {first consumer last value use : Outline} {later rest : List Outline}
      {type : Option Outline} (declares : Declares type value first)
      (plainType : ∀ part ∈ type, plain part)
      (leads : Leads use consumer) (plainUse : plain use)
      (others : Inlines plain links (swap use.ref value consumer) later last rest) :
      Inlines plain (⟨first.ref, value.ref, use.ref⟩ :: links) first (consumer :: later) last rest

end Term

namespace Tree

open Term

section

variable {tree : Tree} {term statement : Outline}

/-- What a declaration of a call declares. -/
theorem callDeclaration?_eq_some {temporary : CallDeclaration} (shown : statement.All tree.Shows)
    (found : tree.callDeclaration? model statement.ref = some temporary) :
    ∃ type value, Declares type value statement ∧ temporary.declaration = statement.ref ∧
      temporary.value = value.ref ∧ (tree.calledMember? value.ref).isSome := by
  rw [callDeclaration?] at found
  split at found
  · rename_i type declarators isDecl
    have depicts := shown.here.depicts
    rw [isDecl] at depicts
    obtain ⟨type, declarators, form, -, entries⟩ := depicts.localDecl
    split at found
    · rename_i declarator single
      rw [single] at entries
      obtain ⟨declarator, rfl, rfl⟩ := List.map_eq_singleton_iff.1 entries.symm
      split at found
      · rename_i name value isDeclarator
        have isChild : declarator ∈ statement.children := by simp [Term.children, form, parts]
        have depicts := (shown.child isChild).here.depicts
        rw [isDeclarator] at depicts
        obtain ⟨value, formDeclarator, rfl⟩ := depicts.declarator
        obtain ⟨_, isCall, found⟩ := Option.bind_eq_some_iff.1 found
        obtain ⟨_, -, found⟩ := Option.bind_eq_some_iff.1 found
        obtain rfl := Option.some.inj found
        have isCall : (tree.calledMember? (refOf value)).isSome := by
          by_contra other
          rw [guard, if_neg other] at isCall
          exact Option.some_ne_none _ isCall.symm
        cases value with
        | none => cases isCall
        | some value =>
          exact ⟨type, value, ⟨declarator, name, form, formDeclarator⟩, rfl, rfl, isCall⟩
      · cases found
    · cases found
  · cases found

/-- Each of the temporaries that are found is declared with a call, and a name of a variable uses
it. -/
theorem exists_of_mem_linksFrom {link : Link} {temporary : CallDeclaration}
    {first : Ref} {later : List Ref} (found : tree.callDeclaration? model first = some temporary)
    (isLink : link ∈ tree.linksFrom model temporary later) :
    (model.symbolOf link.use).isSome ∧ ∃ declared statement, tree.callDeclaration? model statement =
    some declared ∧ declared.declaration = link.declaration ∧ declared.value = link.value := by
  induction later generalizing temporary first with
  | nil => cases isLink
  | cons consumer later ih =>
    rw [linksFrom] at isLink
    split at isLink
    · cases isLink
    · rename_i use isUse
      rcases List.mem_cons.1 isLink with rfl | isLink
      · refine ⟨?_, temporary, first, found, rfl, rfl⟩
        rw [soleReceiverUse?] at isUse
        split at isUse
        · rename_i only isOnly
          split at isUse
          · obtain rfl := Option.some.inj isUse
            have refers := (List.mem_filter.1 (isOnly ▸ List.mem_singleton_self only)).2
            exact Option.isSome_of_eq_some (eq_of_beq refers)
          · cases isUse
        · cases isUse
      · split at isLink
        · rename_i next isNext
          split at isLink
          · exact ih isNext isLink
          · cases isLink
        · cases isLink

theorem exists_of_mem_linksAt {link : Link} {statements : List Ref} {position : Nat}
    (isLink : link ∈ tree.linksAt model statements position) :
    (model.symbolOf link.use).isSome ∧ ∃ declared statement, tree.callDeclaration? model statement =
    some declared ∧ declared.declaration = link.declaration ∧ declared.value = link.value := by
  rw [linksAt] at isLink
  cases found : (List.range (position + 1)).findSome? fun start =>
      let links := tree.leadingLinks model (statements.drop start)
      if !links.isEmpty && position ≤ start + links.length then some links else none with
  | none =>
    rw [found] at isLink
    cases isLink
  | some links =>
    rw [found] at isLink
    obtain ⟨start, -, found⟩ := List.exists_of_findSome?_eq_some found
    simp only at found
    split at found
    · obtain rfl := Option.some.inj found
      rw [Option.getD_some, leadingLinks.eq_def] at isLink
      split at isLink
      · cases isLink
      · split at isLink
        · rename_i isDeclared
          exact exists_of_mem_linksFrom isDeclared isLink
        · cases isLink
    · cases found

/-- A declaration of one variable with a call of a member is found. -/
theorem callDeclaration?_of_form {type : Option Outline} {declarator value : Outline}
    {name : String} {symbol : SymbolId} (shown : statement.All tree.Shows)
    (isDeclaration : statement.kind = .localDecl type [declarator])
    (isDeclarator : declarator.kind = .declarator name (some value))
    (isCall : (tree.calledMember? value.ref).isSome)
    (isSymbol : model.declaredSymbol declarator.ref = some symbol) :
    tree.callDeclaration? model statement.ref = some ⟨statement.ref, symbol, value.ref⟩ := by
  have held : declarator ∈ statement.children := by simp [Term.children, isDeclaration, parts]
  obtain ⟨range, isKind, entries, -⟩ := (isDeclaration ▸ shown.here.depicts).of_localDecl
  have isKindDeclarator := (isDeclarator ▸ (shown.child held).here.depicts).of_declarator
  rw [callDeclaration?, isKind]
  dsimp only
  rw [entries, List.map_singleton]
  dsimp only
  rw [isKindDeclarator]
  dsimp only
  rw [refOf_some, isSymbol, guard, if_pos isCall]
  rfl

/-- What calls and accesses start from is a part of the term, if it is there. -/
theorem spineRootWithin_eq (bound : Nat) (shown : term.All tree.Shows) :
    ∃ part : Option Outline, tree.spineRootWithin bound term.ref = refOf part ∧
      ∀ inner ∈ part, inner ∈ term.subterms := by
  induction bound generalizing term with
  | zero =>
    exact ⟨some term, rfl, fun _ isTerm => Option.mem_some_iff.1 isTerm ▸ self_mem_subterms term⟩
  | succ bound ih =>
    -- The walk goes on in a child that may be absent.
    have onward {child : Option Outline} (isChild : ∀ inner ∈ child, inner ∈ term.children) :
        ∃ part : Option Outline, tree.spineRootWithin bound (refOf child) = refOf part ∧
          ∀ inner ∈ part, inner ∈ term.subterms := by
      cases child with
      | none =>
        refine ⟨none, ?_, fun _ isNone => absurd isNone (Option.not_mem_none _)⟩
        cases bound <;> rfl
      | some child =>
        have inside := isChild child rfl
        obtain ⟨part, same, within⟩ := ih (shown.child inside)
        exact ⟨part, same, fun inner isInner => mem_subterms_of_child inside (within inner isInner)⟩
    have depicts := shown.here.depicts
    rw [spineRootWithin]
    split
    · rename_i isInvoke
      rw [isInvoke] at depicts
      obtain ⟨callee, arguments, form, rfl, -⟩ := depicts.invoke
      exact onward fun inner isInner => by
        simp [Term.children, form, parts, Option.mem_def.1 isInner]
    · rename_i isMember
      rw [isMember] at depicts
      obtain ⟨receiver, form, rfl⟩ := depicts.member
      exact onward fun inner isInner => by
        simp [Term.children, form, parts, Option.mem_def.1 isInner]
    · rename_i isIndex
      rw [isIndex] at depicts
      obtain ⟨receiver, arguments, form, rfl, -⟩ := depicts.index
      exact onward fun inner isInner => by
        simp [Term.children, form, parts, Option.mem_def.1 isInner]
    · exact ⟨some term, rfl, fun _ isTerm => Option.mem_some_iff.1 isTerm ▸ self_mem_subterms term⟩

/-- What a call of a member starts from is below the call, if it is there. -/
theorem Stands.mem_of_spineRoot {use : Outline} (stands : tree.Stands term)
    (once : statement.refs.Nodup)
    (isCall : (tree.calledMember? term.ref).isSome) (within : term ∈ statement.subterms)
    (inside : use ∈ statement.subterms) (present : tree.HasRef use.ref)
    (isRoot : tree.spineRoot term.ref = use.ref) :
    use ∈ term.subterms ∧ use.ref ≠ term.ref := by
  obtain ⟨called, found⟩ := Option.isSome_iff_exists.1 isCall
  obtain ⟨access, receiver, arguments, form, -⟩ := calledMember?_eq_some stands.shown found
  have isChild : access ∈ term.children := by simp [Term.children, form, parts]
  obtain ⟨range, isInvoke, -⟩ := (form ▸ stands.shown.here.depicts).of_invoke
  rw [spineRoot, depthBound, spineRootWithin, isInvoke] at isRoot
  obtain ⟨part, same, below⟩ := spineRootWithin_eq tree.size (stands.shown.child isChild)
  obtain ⟨part, rfl⟩ : ∃ inner, part = some inner := by
    cases part with
    | none => exact absurd (isRoot.symm.trans same) present.ne_none
    | some inner => exact ⟨inner, rfl⟩
  have belowAccess := below part rfl
  have inTerm := mem_subterms_of_child isChild belowAccess
  obtain rfl := subterm_unique once (subterms_trans within inTerm) inside (same.symm.trans isRoot)
  refine ⟨inTerm, fun same =>
    ref_not_mem_innerRefs stands.once (same ▸ mem_innerRefs.2 ⟨access, isChild, ?_⟩)⟩
  exact mem_refs.2 ⟨part, belowAccess, rfl⟩

/-- The sole use of a variable is first in the statement after its declaration. -/
theorem IsProgram.leads_of_soleReceiverUse? {whole : Outline} {model : Model} {symbol : SymbolId}
    {use : Ref}
    {later : List Outline} (program : tree.IsProgram whole)
    (within : ∀ other ∈ statement :: later, other ∈ whole.subterms)
    (found : tree.soleReceiverUse? model symbol ((statement :: later).map Term.ref) = some use) :
    ∃ part ∈ whole.subterms, part.ref = use ∧ model.symbolOf use = some symbol ∧
    Leads part statement := by
  rw [List.map_cons, soleReceiverUse?] at found
  split at found
  · rename_i only isOnly
    split at found
    · rename_i isFirst
      obtain rfl := Option.some.inj found
      simp only [Bool.and_eq_true] at isFirst
      obtain ⟨isUse, refersTo⟩ := List.mem_filter.1 (isOnly ▸ List.mem_singleton_self _)
      obtain ⟨_, isStatement, below⟩ := List.mem_flatMap.1 isUse
      rw [← List.map_cons] at isStatement
      obtain ⟨other, member, rfl⟩ := List.mem_map.1 isStatement
      have otherWithin := within other member
      have inWhole := program.descendants_subset (mem_refs.2 ⟨other, otherWithin, rfl⟩) below
      obtain ⟨part, partWithin, rfl⟩ := mem_refs.1 inWhole
      exact ⟨part, partWithin, rfl, by simpa using refersTo,
        ((program.isEvaluatedFirst_iff partWithin (within statement (.head _))).1
          isFirst.1.2).leads⟩
    · cases found
  · cases found

/-- The temporaries that are found at the front of statements can be inlined there. -/
theorem IsProgram.inlines_of_linksFrom {whole first value : Outline} {model : Model}
    {plain : Outline → Prop}
    {temporary : CallDeclaration} {type : Option Outline} {later : List Outline}
    (program : tree.IsProgram whole)
    (plainTypes : ∀ part ∈ whole.subterms, ∀ type declarators, part.kind
      = .localDecl (some type) declarators → plain type)
    (plainUses : ∀ part ∈ whole.subterms, (model.symbolOf part.ref).isSome → plain part)
    (declares : Declares type value first) (plainType : ∀ part ∈ type, plain part)
    (isDeclaration : temporary.declaration = first.ref) (isValue : temporary.value = value.ref)
    (within : ∀ other ∈ later, other ∈ whole.subterms) :
    ∃ last rest,
    Inlines plain (tree.linksFrom model temporary (later.map Term.ref)) first later last rest := by
  induction later generalizing first value temporary type with
  | nil => exact ⟨first, [], .done⟩
  | cons consumer later ih =>
    rw [List.map_cons, linksFrom, ← List.map_cons]
    split
    · exact ⟨first, consumer :: later, .done⟩
    · rename_i use isUse
      obtain ⟨use, useWithin, rfl, refersTo, leads⟩ :=
        program.leads_of_soleReceiverUse? within isUse
      have isPlain := plainUses use useWithin (by simp [refersTo])
      have consumerWithin := within consumer (.head _)
      have standsConsumer := program.stands.subterm consumerWithin
      rw [isDeclaration, isValue]
      split
      · rename_i next isNext
        split
        · rename_i isRoot
          obtain ⟨nextType, nextValue, declaresNext, isStatement, isNextValue, isCall⟩ :=
            callDeclaration?_eq_some standsConsumer.shown isNext
          have valueWithin := declaresNext.mem_subterms
          rw [isNextValue] at isRoot
          obtain ⟨inValue, other⟩ :=
            (standsConsumer.subterm valueWithin).mem_of_spineRoot standsConsumer.once
            isCall valueWithin leads.mem_subterms
            (program.stands.hasRef (mem_refs.2 ⟨use, useWithin, rfl⟩)) isRoot
          have plainNext : ∀ part ∈ nextType, plain part := by
            intro part isType
            obtain rfl := Option.mem_def.1 isType
            obtain ⟨declarator, name, form, -⟩ := declaresNext
            exact plainTypes consumer consumerWithin part _ form
          obtain ⟨last, rest, inlines⟩ := @ih (Term.swap use.ref value consumer) _ _ _
            (declaresNext.swap standsConsumer.once inValue value) plainNext
            (isStatement.trans (ref_swap_of_ne (leads.ref_ne standsConsumer.once).symm).symm)
            (isNextValue.trans (ref_swap_of_ne other.symm).symm)
            fun other member => within other (.tail _ member)
          exact ⟨last, rest, .step declares plainType leads isPlain inlines⟩
        · exact ⟨_, _, .step declares plainType leads isPlain .done⟩
      · exact ⟨_, _, .step declares plainType leads isPlain .done⟩

end

end Tree

namespace Term

open Refactory.Tree

section

variable {tree : Tree} {plain : Outline → Prop} {links : List Link} {first last : Outline}
  {later rest others : List Outline}

/-- Inlining temporaries leaves a statement in the place of the last use. It stands where the
statement after the declarations was, and no declaration is part of it or of what stands beside
it. -/
theorem Inlines.run (inlines : Inlines plain links first later last rest) (stored : tree.Stored)
    (all : tree.StandsAll (first :: later ++ others)) :
    ∃ after, links.forM Link.inline tree = .ok ((), after) ∧
      Reworks ((first :: later ++ others).flatMap refs) tree after (last :: rest ++ others) ∧
      (first :: later).map Term.ref = links.map Link.declaration ++ (last :: rest).map Term.ref ∧
      ∀ link ∈ links, link.declaration ∉ (last :: rest ++ others).flatMap refs := by
  induction inlines generalizing tree with
  | done => exact ⟨tree, rfl, .refl all (List.Subset.refl _), rfl, fun _ member =>
    absurd member List.not_mem_nil⟩
  | @step links first consumer last value use later rest type declares _ leads _ _ ih =>
    obtain ⟨standsFirst, standsRest, apart⟩ := StandsAll.cons_iff.1 all
    have inner := declares.refs_subset_innerRefs
    have inFirst : value.refs ⊆ first.refs := refs_subset declares.mem_subterms
    have narrowed :=
      all.narrow (StandsAll.singleton_iff.2 (standsFirst.subterm declares.mem_subterms))
        (by simpa using inFirst)
    obtain ⟨holder, within, held⟩ := leads.exists_holder
    obtain ⟨middle, done, reworks⟩ := narrowed.put stored within held
    obtain ⟨after, doneOthers, reworksOthers, places, absent⟩ :=
      ih (reworks.frame.stored stored) reworks.stands
    have standsConsumer := (StandsAll.cons_iff.1 standsRest).1
    have outside : first.ref ∉ (value :: consumer :: (later ++ others)).flatMap refs := by
      rw [List.flatMap_cons, List.mem_append, not_or]
      exact ⟨fun inside =>
        ref_not_mem_innerRefs standsFirst.once (inner inside), apart (ref_mem_refs first)⟩
    have present := standsFirst.hasRef (ref_mem_refs first)
    refine ⟨after, ?_, (reworks.mono ?_).trans reworksOthers, ?_, fun link member => ?_⟩
    · change (Link.inline ⟨first.ref, value.ref, use.ref⟩ >>= fun _ => links.forM Link.inline) tree
        = _
      have inlined : Link.inline ⟨first.ref, value.ref, use.ref⟩ tree = .ok ((), middle) := done
      rw [Change.bind_of_ok inlined]
      exact doneOthers
    · rw [List.cons_append, List.flatMap_cons, List.flatMap_cons]
      exact List.append_subset.2
        ⟨List.subset_append_of_subset_left _ inFirst, List.subset_append_right _ _⟩
    · rw [List.map_cons, ref_swap_of_ne (leads.ref_ne standsConsumer.once).symm] at places
      rw [List.map_cons, List.map_cons, places]
      rfl
    · rcases List.mem_cons.1 member with rfl | member
      · intro inLast
        have inMiddle := reworksOthers.origin _ inLast (present.of_frame reworks.frame)
        exact outside (reworks.origin _ inMiddle present)
      · exact absent link member

end

end Term

namespace Tree

open Term

/-- The forms of lists of statements. -/
def IsListForm (make : List Outline → Form Place) : Prop := make = .block ∨ make = .unit

section

variable {tree : Tree} {make : List Outline → Form Place} {statements others : List Outline}
  {place : Place}

theorem IsListForm.parts_eq (isList : IsListForm make) (statements : List Outline) :
    parts (make statements) = statements := by
  rcases isList with rfl | rfl <;> simp [parts]

/-- The children of a list of statements are the statements. -/
theorem IsListForm.children_eq (isList : IsListForm make) (statements : List Outline) :
    Term.children (.node place (make statements)) = statements := isList.parts_eq statements

theorem IsListForm.mem_subterms {statement : Outline} (isList : IsListForm make)
    (held : statement ∈ statements) :
    statement ∈ subterms (.node place (make statements)) :=
  child_mem_subterms (by rwa [isList.children_eq])

/-- A list in a tree has the nodes of the statements for its children. -/
theorem IsListForm.children_of_stands (isList : IsListForm make)
    (stands : tree.Stands (.node place (make statements))) :
    tree.children place.ref = statements.map Term.ref := by
  have children := stands.shown.here.children
  rwa [isList.children_eq] at children

/-- A list of statements with other ones in the place of one of them. -/
theorem IsListForm.splice_eq (isList : IsListForm make) (target : Ref)
    (new statements : List Outline) :
    splice target new (make statements)
      = make (statements.flatMap fun term => if term.ref = target then new else [term]) := by
  rcases isList with rfl | rfl <;> rfl

theorem IsListForm.isList (isList : IsListForm make)
    (statements : List Outline) : (make statements).isList = true := by
  rcases isList with rfl | rfl <;> rfl

theorem IsListForm.fitsInto (isList : IsListForm make) (target : Ref)
    (new statements : List Outline) :
    ∀ content ∈ (make statements).slots, FitsInto target new true content :=
  fitsInto_of_isList (isList.isList statements) target new

/-- A node with a list of statements has a form of statement lists. -/
theorem exists_listForm {form : Form Place} (isList : form.isList = true) :
    ∃ make statements, IsListForm make ∧ form = make statements := by
  cases form <;>
    first | exact ⟨.block, _, .inl rfl, rfl⟩ | exact ⟨.unit, _, .inr rfl, rfl⟩ | cases isList

/-- A list of statements with other ones in the place of one that is known. -/
theorem IsListForm.splice_split {front back : List Outline} {statement : Outline}
    (isList : IsListForm make)
    (once : ((front ++ statement :: back).map Term.ref).Nodup) (new : List Outline) :
    splice statement.ref new (make (front ++ statement :: back)) = make (front ++ new ++ back) := by
  have kept := parts_splice_child (isList.fitsInto statement.ref new (front ++ statement :: back))
    (isList.parts_eq _)
    fun other member same => by
      rw [List.map_append, List.map_cons, List.nodup_middle, ← List.map_append] at once
      exact (List.nodup_cons.1 once).1 (same ▸ List.mem_map_of_mem member)
  rw [isList.splice_eq, isList.parts_eq] at kept
  rw [isList.splice_eq, kept]

/-- A list of statements shows all terms that are where the statements are. -/
theorem Shows.relist (isList : IsListForm make) (shows : tree.Shows (.node place (make statements)))
    (same : statements.map Term.ref = others.map Term.ref) :
    tree.Shows (.node place (make others)) := by
  obtain ⟨number, kind, isPlace, stored, depicts⟩ := shows
  refine ⟨number, kind, isPlace, stored, ?_⟩
  rcases isList with rfl | rfl
  all_goals
    obtain ⟨slots, skeleton⟩ := depicts
    obtain ⟨range, slots', holds, rest, isSlots⟩ := List.forall₂_cons_right_iff.1 slots
    obtain rfl := List.forall₂_nil_right_iff.1 rest
    refine ⟨?_, skeleton⟩
    rw [isSlots]
    refine .cons ?_ .nil
    cases range with
    | one ref => cases holds
    | many range => exact ⟨holds.1.trans same, holds.2⟩

end

end Tree

namespace Link

open Term Refactory.Tree

/-- Removing a declaration from a list of statements leaves the others. -/
theorem remove_shows {tree : Tree} {make : List Outline → Form Place} {place : Place} {link : Link}
    {front back : List Outline} {dropped : Outline} (isList : IsListForm make)
    (stored : tree.Stored)
    (shows : tree.Shows (.node place (make (front ++ dropped :: back))))
    (once : ((front ++ dropped :: back).map Term.ref).Nodup)
    (hasRef : ∀ term ∈ front ++ dropped :: back, tree.HasRef term.ref)
    (isDeclaration : link.declaration = dropped.ref) :
    ∃ after, link.remove place.ref tree = .ok ((), after) ∧
      Frame [place.ref] ((front ++ dropped :: back).map Term.ref) tree after ∧
      after.Shows (.node place (make (front ++ back))) ∧
      after.Adopts (.node place (make (front ++ back))) := by
  have others : ∀ other ∈ front ++ back, other.ref ≠ dropped.ref := by
    intro other member same
    rw [List.map_append, List.map_cons, List.nodup_middle, ← List.map_append] at once
    exact (List.nodup_cons.1 once).1 (same ▸ List.mem_map_of_mem member)
  have fits := isList.fitsInto dropped.ref [] (front ++ dropped :: back)
  have spliced := isList.splice_split once []
  rw [List.append_nil] at spliced
  obtain ⟨middle, edited, frame, shows, adopts⟩ :=
    @editChild_shows dropped.ref [] true tree place _ stored shows
    (List.mem_map_of_mem (isList.parts_eq _ ▸ by simp)) (isList.parts_eq _ ▸ hasRef) (by simp) fits
  rw [spliced] at frame shows adopts
  rw [isList.parts_eq] at frame
  have drops := dropLink_frame place.ref dropped.ref [] middle
  have some : (front ++ back).Sublist (front ++ dropped :: back) :=
    (List.Sublist.refl front).append (List.sublist_cons_self dropped back)
  refine ⟨dropLink place.ref dropped.ref [] middle, ?_, ?_, shows.of_frame drops List.not_mem_nil,
    fun child isChild => ?_⟩
  · rw [remove, isDeclaration]
    change (match Tree.spliceChild place.ref dropped.ref [] tree with
      | (found, tree) => Change.demand found .unlistedTemporary tree) = _
    rw [show Tree.spliceChild place.ref dropped.ref [] tree = (true, _) from edited]
    rfl
  · refine (frame.mono (fun _ member _ => member) fun ref member _ =>
      (some.map Term.ref).subset member).trans drops
      (fun _ member => absurd member List.not_mem_nil) fun ref isDropped _ => ?_
    exact List.mem_singleton.1 isDropped ▸ List.mem_map_of_mem (by simp)
  · have isOther : child ∈ front ++ back := by
      rwa [isList.children_eq] at isChild
    obtain ⟨number, inside, isPlace⟩ := (hasRef child (some.subset isOther)).of_frame frame
    have link := adopts child isChild
    rw [isPlace] at link ⊢
    refine (drops.parents number inside fun isDropped => others child isOther ?_).trans link
    exact isPlace.trans (List.mem_singleton.1 isDropped)

/-- Removing declarations from a list of statements leaves the others, which the list has
adopted. -/
theorem remove_run {tree : Tree} {make : List Outline → Form Place} {place : Place}
    {links : List Link}
    {front dropped back : List Outline} (isList : IsListForm make) (stored : tree.Stored)
    (shows : tree.Shows (.node place (make (front ++ (dropped ++ back)))))
    (once : ((front ++ (dropped ++ back)).map Term.ref).Nodup)
    (hasRef : ∀ term ∈ front ++ (dropped ++ back), tree.HasRef term.ref)
    (declared : links.map Link.declaration = dropped.map Term.ref)
    (adopts : links = [] → tree.Adopts (.node place (make (front ++ back)))) :
    ∃ after, links.forM (Link.remove place.ref) tree = .ok ((), after) ∧
      Frame [place.ref] ((front ++ (dropped ++ back)).map Term.ref) tree after ∧
      after.Shows (.node place (make (front ++ back))) ∧
      after.Adopts (.node place (make (front ++ back))) := by
  induction links generalizing tree dropped with
  | nil =>
    obtain rfl := List.map_eq_nil_iff.1 declared.symm
    exact ⟨tree, rfl, .refl tree, shows, adopts rfl⟩
  | cons link links ih =>
    obtain ⟨statement, dropped, rfl, isDeclaration, declared⟩ :=
      List.map_eq_cons_iff.1 declared.symm
    obtain ⟨middle, removed, frame, shows, adoptsOthers⟩ :=
      remove_shows isList stored shows once hasRef isDeclaration.symm
    have some : (front ++ (dropped ++ back)).Sublist (front ++ (statement :: dropped ++ back)) :=
      (List.Sublist.refl front).append (List.sublist_cons_self statement _)
    obtain ⟨after, removedOthers, frameOthers, showsAfter, adoptsAfter⟩ :=
      ih (frame.stored stored) shows
        (once.sublist (some.map Term.ref))
        (fun term member => (hasRef term (some.subset member)).of_frame frame)
      declared.symm fun none => by
        obtain rfl := List.map_eq_nil_iff.1 (declared.trans (congrArg _ none))
        exact adoptsOthers
    refine ⟨after, ?_, ?_, showsAfter, adoptsAfter⟩
    · change (Link.remove place.ref link >>= fun _ => links.forM (Link.remove place.ref)) tree = _
      rw [Change.bind_of_ok removed]
      exact removedOthers
    · exact frame.trans frameOthers (fun _ member _ => member) fun ref member _ =>
        (some.map Term.ref).subset member

end Link

namespace Context

open Term Refactory.Tree

/-- What inlining temporaries makes of a program: some statements of a list become one, and all else
is as it was. -/
inductive ChainsCalls (plain : Outline → Prop) (whole : Outline) : Outline → Prop
  /-- The statements from the first declaration on. -/
  | intro {place : Place} {make : List Outline → Form Place} {links : List Link}
      {front later rest : List Outline}
      {first last : Outline} (isList : IsListForm make)
      (within : .node place (make (front ++ first :: later)) ∈ whole.subterms)
      (inlines : Inlines plain links first later last rest) :
      ChainsCalls plain whole (swap place.ref (.node place (make (front ++ last :: rest))) whole)

/-- Inlining temporaries in a statement list of a program gives a program, and all nodes outside the
list are as they were. -/
theorem inline_isProgram {tree : Tree} {whole first last : Outline} {plain : Outline → Prop}
    {place : Place} {make : List Outline → Form Place} {links : List Link}
    {front later rest : List Outline}
    (program : tree.IsProgram whole) (isList : IsListForm make)
    (within : .node place (make (front ++ first :: later)) ∈ whole.subterms)
    (inlines : Inlines plain links first later last rest) (some : links ≠ []) :
    ∃ after, (do
        links.forM Link.inline
        links.forM (Link.remove place.ref) : Change Unit) tree = .ok ((), after) ∧
      after.IsProgram (swap place.ref (.node place (make (front ++ last :: rest))) whole) ∧
      ∀ ref ∈ whole.refs, ref ∉ (Term.node place (make (front ++ first :: later))).refs →
        after.node ref = tree.node ref := by
  have standsHolder := program.stands.subterm within
  obtain ⟨standsChildren, outside⟩ := standsHolder.children
  rw [isList.children_eq] at standsChildren outside
  have scopeSame := (@List.perm_append_comm _ front (first :: later)).flatMap_right refs
  have inner : innerRefs (.node place (make (front ++ first :: later)))
      = (front ++ first :: later).flatMap refs := by
    rw [innerRefs, isList.children_eq]
  have all : tree.StandsAll (first :: later ++ front) := standsChildren.perm List.perm_append_comm
  obtain ⟨middle, inlined, reworks, places, absent⟩ := inlines.run program.stored all
  obtain ⟨dropped, kept, split, areDropped, areKept⟩ := List.map_eq_append_iff.1 places
  have sameRoots : (front ++ first :: later).map Term.ref
      = (front ++ (dropped ++ last :: rest)).map Term.ref := by
    rw [split, List.map_append, List.map_append, areKept, List.map_append, List.map_append]
  have standsKept : middle.StandsAll (front ++ last :: rest) :=
    reworks.stands.perm List.perm_append_comm
  have inScope {ref : Ref} (inside : ref ∈ (front ++ last :: rest).flatMap refs)
      (stored : tree.HasRef ref) :
      ref ∈ (front ++ first :: later).flatMap refs := by
    refine scopeSame.mem_iff.2 (reworks.origin ref ?_ stored)
    exact (List.perm_append_comm.flatMap_right refs).mem_iff.1 inside
  have rootsOnce := standsChildren.once.sublist (roots_sublist _)
  have hasRef {ref : Ref}
      (isRoot : ref ∈ (front ++ (dropped ++ last :: rest)).map Term.ref) : tree.HasRef ref := by
    rw [← sameRoots] at isRoot
    exact standsChildren.hasRef ((roots_sublist _).subset isRoot)
  have shows := ((program.stands.shows within).of_frame reworks.frame fun isChanged =>
    outside (scopeSame.mem_iff.2 isChanged)).relist isList sameRoots
  obtain ⟨after, removed, removes, showsAfter, adopts⟩ :=
    Link.remove_run isList (reworks.frame.stored program.stored) shows (sameRoots ▸ rootsOnce)
      (fun term member => (hasRef (List.mem_map_of_mem member)).of_frame reworks.frame)
    areDropped.symm fun none => absurd none some
  have outsideKept : place.ref ∉ (front ++ last :: rest).flatMap refs := fun inside =>
    outside (inScope inside (program.stands.hasRef (mem_refs.2 ⟨_, within, rfl⟩)))
  have standsList : after.Stands (.node place (make (front ++ last :: rest))) := by
    refine (isList.parts_eq _ ▸
      standsKept : middle.StandsAll (parts (make (front ++ last :: rest)))).adopted removes
      showsAfter adopts ?_ (fun ref inside isPlace => ?_) fun child isChild ref inside isRoot => ?_
    · rwa [isList.parts_eq]
    · rw [isList.parts_eq] at inside
      exact outsideKept (List.mem_singleton.1 isPlace ▸ inside)
    · rw [isList.parts_eq] at isChild
      have within : ref ∈ (front ++ last :: rest).flatMap refs :=
        List.mem_flatMap.2 ⟨child, isChild, refs_eq child ▸ .tail _ inside⟩
      rw [List.map_append, List.map_append, List.mem_append, List.mem_append, areDropped] at isRoot
      rcases isRoot with inFront | isDropped | isKept
      · exact standsKept.innerRefs_not_root isChild inside (by simp [inFront])
      · obtain ⟨link, member, rfl⟩ := List.mem_map.1 isDropped
        exact absent link member ((List.perm_append_comm.flatMap_right refs).mem_iff.1 within)
      · exact standsKept.innerRefs_not_root isChild inside
          (by rw [List.map_append]; exact List.mem_append_right _ isKept)
  have both : Frame (place.ref :: (front ++ first :: later).flatMap refs)
      ((front ++ first :: later).flatMap refs)
      tree after := by
    refine (reworks.frame.mono (fun ref inside _ => .tail _ (scopeSame.mem_iff.2 inside))
      fun ref inside _ => scopeSame.mem_iff.2 inside).trans removes
      (fun ref isPlace _ => List.mem_singleton.1 isPlace ▸ .head _)
      fun ref isRoot _ => (roots_sublist _).subset (sameRoots ▸ isRoot)
  refine ⟨after, ?_,
    program.swap both within standsList rfl (fun ref _ inside => ?_) (fun ref _ inside => ?_)
    fun ref inside inWhole => ?_, fun ref inWhole absent =>
    both.node_eq (program.stands.hasRef inWhole) fun changed => ?_⟩
  · rw [Change.bind_of_ok inlined]
    exact removed
  · rw [refs_eq, inner]
    exact inside
  · rwa [inner]
  · rw [refs_eq, inner]
    rw [refs_node, isList.parts_eq] at inside
    exact (List.mem_cons.1 inside).elim (fun same => same ▸ .head _) fun below =>
      .tail _ (inScope below (program.stands.hasRef inWhole))
  · rw [refs_eq, inner] at absent
    exact absent changed

/-- The temporaries that are found in a statement list can be inlined there. -/
theorem exists_inlines_of_linksAt {tree : Tree} {whole holder : Outline} {model : Model}
    {plain : Outline → Prop} {position : Nat} (program : tree.IsProgram whole)
    (plainTypes : ∀ part ∈ whole.subterms, ∀ type declarators, part.kind
      = .localDecl (some type) declarators → plain type)
    (plainUses : ∀ part ∈ whole.subterms, (model.symbolOf part.ref).isSome → plain part)
    (within : holder ∈ whole.subterms)
    (some : tree.linksAt model (tree.children holder.ref) position ≠ []) :
    ∃ front first later last rest, holder.children = front ++ first :: later ∧ Inlines plain
      (tree.linksAt model (tree.children holder.ref) position) first later last rest := by
  rw [linksAt] at some ⊢
  cases found : (List.range (position + 1)).findSome? fun start =>
      let links := tree.leadingLinks model ((tree.children holder.ref).drop start)
      if !links.isEmpty && position ≤ start + links.length then Option.some links else none with
  | none =>
    rw [found] at some
    exact absurd rfl some
  | some links =>
    rw [found] at some
    obtain ⟨start, -, found⟩ := List.exists_of_findSome?_eq_some found
    simp only at found
    split at found
    · obtain rfl := Option.some.inj found
      have standsHolder := program.stands.subterm within
      rw [standsHolder.shown.here.children, ← List.map_drop] at some ⊢
      have split := List.take_append_drop start holder.children
      cases rest : holder.children.drop start with
      | nil =>
        rw [rest] at some
        exact absurd rfl some
      | cons first later =>
        rw [rest] at some split
        rw [List.map_cons, leadingLinks] at some ⊢
        have isChild {other : Outline}
            (member : other ∈ first :: later) : other ∈ whole.subterms := by
          refine subterms_child within ?_
          rw [← split]
          exact List.mem_append_right _ member
        cases isDeclaration : tree.callDeclaration? model first.ref with
        | none =>
          rw [isDeclaration] at some
          exact absurd rfl some
        | some temporary =>
          obtain ⟨type, value, declares, isFirst, isValue, -⟩ := callDeclaration?_eq_some
            (program.stands.subterm (isChild (.head _))).shown isDeclaration
          have plainType : ∀ part ∈ type, plain part := by
            intro part isType
            obtain rfl := Option.mem_def.1 isType
            obtain ⟨declarator, name, form, -⟩ := declares
            exact plainTypes first (isChild (.head _)) part _ form
          obtain ⟨last, rest, inlines⟩ :=
            program.inlines_of_linksFrom plainTypes plainUses declares plainType
            isFirst isValue fun other member => isChild (.tail _ member)
          exact ⟨_, first, later, last, rest, split.symm, inlines⟩
    · cases found

/-- What inlining the temporaries that are found in a statement list leaves: the statements
around the inlined values are in the place of all of them, and all nodes outside the list are as
they were. -/
structure ChainsAt (tree : Tree) (model : Model) (plain : Outline → Prop) (whole : Outline)
    (statement : Ref) (position : Nat)
    (result : Tree) (place : Place) (make : List Outline → Form Place) (links : List Link)
    (front later rest : List Outline)
    (first last : Outline) : Prop where
  /-- The list is one of statements. -/
  isList : IsListForm make
  /-- It is part of the program. -/
  within : .node place (make (front ++ first :: later)) ∈ whole.subterms
  /-- It holds the statement. -/
  holds : tree.parent statement = place.ref
  /-- The statement has its position in it. -/
  isPosition : ((front ++ first :: later).map Term.ref).idxOf? statement = Option.some position
  /-- The temporaries are those that are found. -/
  isLinks : links = tree.linksAt model ((front ++ first :: later).map Term.ref) position
  /-- They are inlined. -/
  inlines : Inlines plain links first later last rest
  /-- There is one at least. -/
  isSome : links ≠ []
  /-- The result is a program. -/
  program : result.IsProgram (swap place.ref (.node place (make (front ++ last :: rest))) whole)
  /-- Nothing outside the list is touched. -/
  spares : ∀ ref ∈ whole.refs, ref ∉ (Term.node place (make (front ++ first :: later))).refs →
    result.node ref = tree.node ref

/-- Inlining temporaries is offered only where some are found in the list around the statement, and
it inlines those. -/
theorem chainCalls_chains {context : Context} {whole : Outline} {plain : Outline → Prop} {ref : Ref}
    (program : context.tree.IsProgram whole) (member : ref ∈ whole.refs)
    (plainTypes : ∀ part ∈ whole.subterms, ∀ type declarators, part.kind
      = .localDecl (some type) declarators → plain type)
    (plainUses : ∀ part ∈ whole.subterms, (context.model.symbolOf part.ref).isSome → plain part) :
    Attempt.Gives (context.chainCalls ref) (Offers fun result =>
      ∃ position place make links front later rest first last, ChainsAt context.tree context.model
        plain whole (context.tree.statementOf ref) position result place make links front later
        rest first last) := by
  obtain ⟨statement, isStatement, same⟩ := mem_refs.1 (program.statementOf_mem member)
  rw [chainCalls]
  simp only [← same]
  split
  · rename_i isList
    obtain ⟨isSome, isList⟩ := Bool.and_eq_true_iff.1 isList
    rcases program.parent_cases isStatement with ⟨-, top⟩ | ⟨holder, within, held, up⟩
    · rw [top] at isSome
      cases isSome
    · rw [up] at isList ⊢
      have standsHolder := program.stands.subterm within
      have isChild : statement.ref ∈ context.tree.children holder.ref := by
        rw [standsHolder.shown.here.children]
        exact List.mem_map_of_mem held
      split
      · rename_i missing
        exact absurd isChild (List.idxOf?_eq_none_iff.1 missing)
      · rename_i position isPosition
        rw [chainCallsAt]
        simp only
        split
        · exact Attempt.refuse_offers _
        · rename_i some
          obtain ⟨front, first, later, last, rest, split, inlines⟩ :=
            exists_inlines_of_linksAt program plainTypes plainUses within some
          obtain ⟨make, statements, isForm, form⟩ :=
            exists_listForm ((program.stands.shows within).isStatementList ▸ isList)
          rcases holder with ⟨place, _⟩
          obtain rfl : _ = make statements := form
          obtain rfl : statements = front ++ first :: later := by
            rwa [Term.children, Term.kind, isForm.parts_eq] at split
          obtain ⟨after, changed, isProgram, spares⟩ :=
            inline_isProgram program isForm within inlines some
          have listed :
              context.tree.children place.ref = (front ++ first :: later).map Term.ref := by
            have listed := standsHolder.shown.here.children
            rwa [Term.children, Term.kind, isForm.parts_eq] at listed
          exact Context.offer_offers ⟨after, changed, position, place, make, _, front, later, rest,
            first, last, isForm, within, up, listed ▸ isPosition, congrArg (context.tree.linksAt
            context.model · position) listed, inlines, some, isProgram, spares⟩
  · exact Attempt.none_offers

/-- Inlining temporaries is offered only with a program for its result, which has the statements
around the inlined values in the place of all of them. -/
theorem chainCalls_offers {context : Context} {whole : Outline} {plain : Outline → Prop} {ref : Ref}
    (program : context.tree.IsProgram whole) (member : ref ∈ whole.refs)
    (plainTypes : ∀ part ∈ whole.subterms, ∀ type declarators, part.kind
      = .localDecl (some type) declarators → plain type)
    (plainUses : ∀ part ∈ whole.subterms, (context.model.symbolOf part.ref).isSome → plain part) :
    Attempt.Gives (context.chainCalls ref)
      (Offers fun result => ∃ term, result.IsProgram term ∧ ChainsCalls plain whole term) := by
  refine (chainCalls_chains program member plainTypes plainUses).mono
    fun offered offers action isOffered => ?_
  obtain ⟨_, _, _, _, _, _, _, _, _, chains⟩ := offers action isOffered
  exact ⟨_, chains.program, .intro chains.isList chains.within chains.inlines⟩

end Context

end Refactory
