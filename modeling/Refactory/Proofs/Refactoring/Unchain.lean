import Refactory.Proofs.Naming
import Refactory.Proofs.Refactoring.Chain

/-!
# Introducing temporaries

Each call of a chain but the last becomes the value of a temporary of its own, from the innermost
call outwards (`Term.Extracts`). What is left of the statement comes after the declarations
(`Context.unchainCalls_offers`).
-/
namespace Refactory

namespace Term

/-- Each of some calls is made on what the one before gives, up to an outermost one. -/
inductive Climbs : Outline → List Ref → Outline → Prop
  /-- The outermost call. -/
  | top {call : Outline} : Climbs call [] call
  /-- A member of what a call gives is called next. -/
  | up {call access next outer : Outline} {arguments : List Outline} {name : String}
      {conditional : Bool}
      {calls : List Ref} (isCall : next.kind = .invoke (some access) arguments)
      (isAccess : access.kind = .member (some call) name conditional)
      (above : Climbs next calls outer) :
      Climbs call (next.ref :: calls) outer

/-- A call is one of a member of a receiver. -/
def MadeOn (receiver call : Outline) : Prop :=
  ∃ access arguments name conditional, call.kind = .invoke (some access) arguments ∧
    access.kind = .member (some receiver) name conditional

/-- A temporary that is declared with a value, and the name that is used instead of the value. -/
structure Introduced where
  /-- The name. -/
  name : String
  /-- The declaration. -/
  declaration : Outline
  /-- The type that is written in the declaration. -/
  type : Outline
  /-- The declarator. -/
  declarator : Outline
  /-- The value. -/
  value : Outline
  /-- The use. -/
  use : Outline
  /-- The declaration is one of a single variable. -/
  isDeclaration : declaration.kind = .localDecl (some type) [declarator]
  /-- The type is to be inferred. -/
  isType : type.kind = .typeRef "var" [] 0
  /-- The variable has the name and the value. -/
  isDeclarator : declarator.kind = .declarator name (some value)
  /-- The name is used. -/
  isUse : use.kind = .ident name

/-- Temporaries are introduced in a statement for calls that are made one on the other, from a
first call on. Each is declared with the first call that is left, and its name comes in the
place of that. -/
inductive Introduces : List Introduced → Outline → Outline → Outline → Prop
  /-- No temporary is left. -/
  | done {call statement : Outline} : Introduces [] call statement statement
  /-- A name comes in the place of what the next call is made on. -/
  | step {temporary : Introduced} {others : List Introduced} {call next statement last : Outline}
      (isValue : temporary.value = call) (made : MadeOn call next) (first : First next statement)
      (fresh : temporary.use.ref ∉ statement.refs)
      (rest : Introduces others (swap call.ref temporary.use next)
        (swap call.ref temporary.use statement) last) :
      Introduces (temporary :: others) call statement last

section

variable {call access next outer statement : Outline} {arguments : List Outline} {name : String}
  {conditional : Bool} {calls : List Ref}

/-- What a member is called on is evaluated first in the call. -/
theorem MadeOn.first (made : MadeOn call next) : First call next := by
  obtain ⟨access, arguments, name, conditional, isCall, isAccess⟩ := made
  have inner : access.children = [] ++ call :: [] := by simp [Term.children, isAccess, parts]
  have outer : next.children = [] ++ access :: arguments := by simp [Term.children, isCall, parts]
  refine First.trans (.child inner (by simp) (by rw [isAccess]; rfl)) (.child outer (by simp) ?_)
  rw [isCall, defers, isAccess]
  rfl

/-- A call stays one of a member of its receiver when something in the receiver is swapped. -/
theorem MadeOn.swap {part new : Outline} (made : MadeOn call next) (once : next.refs.Nodup)
    (inside : part ∈ call.subterms) :
    MadeOn (Term.swap part.ref new call) (Term.swap part.ref new next) := by
  obtain ⟨access, arguments, name, conditional, isCall, isAccess⟩ := made
  have isChild : access ∈ next.children := by simp [Term.children, isCall, parts]
  have held : call ∈ access.children := by simp [Term.children, isAccess, parts]
  have differ := ref_ne_of_child once isChild (mem_subterms_of_child held inside)
  have differAccess :=
    ref_ne_of_child (once.sublist (refs_sublist (child_mem_subterms isChild))) held inside
  exact ⟨Term.swap part.ref new access, arguments.map (Term.swap part.ref new), name, conditional,
    (kind_swap_of_ne differ).trans (congrArg _ isCall),
    (kind_swap_of_ne differAccess).trans (congrArg _ isAccess)⟩

/-- The innermost call is evaluated first in the outermost one, unless there is just one call. -/
theorem Climbs.eq_or_first (climbs : Climbs call calls outer) :
    call = outer ∨ First call outer := by
  induction climbs with
  | top => exact .inl rfl
  | up isCall isAccess _ ih =>
    have first := MadeOn.first ⟨_, _, _, _, isCall, isAccess⟩
    exact .inr (ih.elim (fun same => same ▸ first) first.trans)

/-- The innermost call is evaluated first where the outermost one is. -/
theorem Climbs.first (climbs : Climbs call calls outer) (first : First outer statement) :
    First call statement :=
  climbs.eq_or_first.elim (fun same => same ▸ first) fun inside => inside.trans first

theorem Climbs.mem_subterms (climbs : Climbs call calls outer) : call ∈ outer.subterms :=
  climbs.eq_or_first.elim (fun same => same ▸ self_mem_subterms call) First.mem_subterms

/-- One more call is made on what the outermost one gives. -/
theorem Climbs.snoc (climbs : Climbs call calls outer)
    (isCall : next.kind = .invoke (some access) arguments)
    (isAccess : access.kind = .member (some outer) name conditional) :
    Climbs call (calls ++ [next.ref]) next := by
  induction climbs with
  | top => exact .up isCall isAccess .top
  | up isCall' isAccess' _ ih => exact .up isCall' isAccess' (ih isAccess)

/-- The calls stay when something below the innermost one is swapped. -/
theorem Climbs.swap {target new : Outline} (climbs : Climbs call calls outer)
    (once : outer.refs.Nodup)
    (inside : target ∈ call.subterms) (below : target.ref ≠ call.ref) :
    Climbs (Term.swap target.ref new call) calls (Term.swap target.ref new outer) := by
  induction climbs with
  | top => exact .top
  | @up call access next outer arguments name conditional calls isCall isAccess above ih =>
    have made : MadeOn call next := ⟨_, _, _, _, isCall, isAccess⟩
    have onceNext := once.sublist (refs_sublist above.mem_subterms)
    have nextOther := made.first.ref_ne onceNext inside
    obtain ⟨_, _, _, _, isCallSwapped, isAccessSwapped⟩ :=
      @MadeOn.swap _ _ target new made onceNext inside
    rw [← @ref_swap_of_ne _ new _ nextOther.symm]
    exact .up isCallSwapped isAccessSwapped
      (ih once (subterms_trans made.first.mem_subterms inside) nextOther)

end

namespace Introduced

variable (temporary : Introduced)

theorem declares : Declares (some temporary.type) temporary.value temporary.declaration :=
  ⟨temporary.declarator, temporary.name, temporary.isDeclaration, temporary.isDeclarator⟩

/-- The use is a single node. -/
theorem refs_use : temporary.use.refs = [temporary.use.ref] := by
  rw [refs_eq, innerRefs, Term.children, temporary.isUse]
  rfl

/-- No place occurs twice after a new name has come in the place of a part. -/
theorem nodup_swap {call statement : Outline} (once : statement.refs.Nodup)
    (within : call ∈ statement.subterms) (fresh : temporary.use.ref ∉ statement.refs) :
    (swap call.ref temporary.use statement).refs.Nodup := by
  refine nodup_refs_swap once within (temporary.refs_use ▸ List.nodup_singleton temporary.use.ref)
    fun ref isUse inside => ?_
  rw [temporary.refs_use, List.mem_singleton] at isUse
  exact absurd (isUse ▸ inside) fresh

end Introduced

end Term

namespace Tree

open Term

section

variable {tree : Tree} {term : Outline}

/-- The calls met on the way down the receivers of a call are made one on the other. -/
theorem climbs_of_callSpineWithin (bound : Nat) (shown : term.All tree.Shows) :
    tree.callSpineWithin bound term.ref = [] ∨ ∃ call calls,
      (tree.callSpineWithin bound term.ref).reverse = call.ref :: calls ∧
      (tree.calledMember? call.ref).isSome ∧ Climbs call calls term := by
  induction bound generalizing term with
  | zero => exact .inl rfl
  | succ bound ih =>
    rw [callSpineWithin]
    split
    · rename_i called found
      obtain ⟨access, receiver, arguments, isCall, isAccess, -, isReceiver⟩ :=
        calledMember?_eq_some shown found
      have start : tree.callSpineWithin bound called.receiver = [] → ∃ call calls,
          (term.ref :: tree.callSpineWithin bound called.receiver).reverse = call.ref :: calls ∧
            (tree.calledMember? call.ref).isSome ∧ Climbs call calls term := by
        intro none
        exact ⟨term, [], by rw [none]; rfl, Option.isSome_iff_exists.2 ⟨called, found⟩, .top⟩
      refine .inr ?_
      rw [isReceiver] at start ⊢
      cases receiver with
      | none => exact start (by cases bound <;> rfl)
      | some receiver =>
        have isChild : access ∈ term.children := by simp [Term.children, isCall, parts]
        have held : receiver ∈ access.children := by simp [Term.children, isAccess, parts]
        rcases ih ((shown.child isChild).child held)
          with none | ⟨call, calls, spine, isCalled, climbs⟩
        · exact start none
        · refine ⟨call, calls ++ [term.ref], ?_, isCalled, climbs.snoc isCall isAccess⟩
          rw [refOf_some, List.reverse_cons, spine]
          rfl
    · exact .inl rfl

end

end Tree

namespace Temporary

open Term Refactory.Tree

/-- Introducing a temporary puts its name in the place of what a member is called on, and makes a
declaration of that beside the statement. -/
theorem introduce_stands {tree : Tree} {statement next access call : Outline}
    {arguments : List Outline}
    {member : String} {conditional : Bool} (name : String) (stored : tree.Stored)
    (stands : tree.Stands statement)
    (nextWithin : next ∈ statement.subterms) (isCall : next.kind = .invoke (some access) arguments)
    (isAccess : access.kind = .member (some call) member conditional) :
    ∃ (temporary : Introduced) (after : Tree),
      introduce name call.ref next.ref tree = .ok (temporary.declaration.ref, after) ∧
      temporary.name = name ∧ temporary.value = call ∧ temporary.use.ref ∉ statement.refs ∧
      Frame statement.refs statement.innerRefs tree after ∧
      after.StandsAll [temporary.declaration, swap call.ref temporary.use statement] ∧
      ∀ ref ∈ [temporary.declaration, swap call.ref temporary.use statement].flatMap refs,
      tree.HasRef ref → ref ∈ statement.refs := by
  have isCalled := calledMember?_of_form (stands.subterm nextWithin).shown isCall isAccess
  have within := subterms_child nextWithin
    (show access ∈ next.children by simp [Term.children, isCall, parts])
  have held : call ∈ access.children := by simp [Term.children, isAccess, parts]
  have callWithin := subterms_child within held
  obtain ⟨_, _, named, makesName, builds, place, rfl, rfl⟩ := Build.ident_makes stored name
  set new : Outline := .node place (.ident name)
  have grows : Frame [] [] tree named := builds.frame
  have isNew {ref : Ref} (inside : ref ∈ new.refs) (old : tree.HasRef ref) : False :=
    List.not_mem_nil (builds.origin ref (by simpa using inside) old)
  have newRef := ref_mem_refs new
  have standsNamed := stands.of_growth grows
  have sameParts : parts (.member (some new) member conditional) = [new] := by simp [parts]
  have holds : named.Holds (.one new.ref) (.one (some new)) := builds.stands.holds (by simp)
  have depicts : named.Depicts (.member new.ref member conditional)
      (.member (some new) member conditional) := ⟨.cons holds .nil, rfl⟩
  obtain ⟨placed, set, sets, reshapes⟩ :=
    standsNamed.setKind (Frame.refl named : Frame [] [] named named)
      (grows.stored stored) within (by simp)
      (by simp) depicts (sameParts ▸ builds.stands) fun ref inside old => by
        rw [sameParts] at inside
        exact (isNew (by simpa using inside) (stands.hasRef old)).elim
  rw [sameParts] at sets
  have spliced : splice call.ref [new] access.kind = .member (some new) member conditional := by
    rw [isAccess, splice_single]
    simp
  have standsSwapped := standsNamed.reshape within reshapes
  rw [← spliced, swap_holder stands.once within held] at standsSwapped
  have standsCall : placed.Stands call := by
    refine (standsNamed.subterm callWithin).of_frame sets (fun ref inside isAccess => ?_)
      fun ref inside isNewRef => ?_
    · refine ref_not_mem_innerRefs (stands.subterm within).once (mem_innerRefs.2 ⟨call, held, ?_⟩)
      exact List.mem_singleton.1 isAccess ▸ inside
    · have old := stands.hasRef (refs_subset callWithin (innerRefs_subset_refs _ inside))
      exact isNew newRef (List.mem_singleton.1 isNewRef ▸ old)
  have inSwapped {ref : Ref} (inside : ref ∈ (swap call.ref new statement).refs) :
      ref ∈ statement.refs ∧ ref ∉ call.refs ∨ ref ∈ new.refs :=
    (mem_refs_swap stands.once callWithin).1 inside
  have both : placed.StandsAll ([call] ++ [swap call.ref new statement]) := by
    refine StandsAll.cons_iff.2
      ⟨standsCall, StandsAll.singleton_iff.2 standsSwapped, fun ref inCall inside => ?_⟩
    rcases inSwapped (by simpa using inside) with ⟨-, outside⟩ | inNew
    · exact outside inCall
    · exact isNew inNew (stands.hasRef (refs_subset callWithin inCall))
  have grown : Frame statement.refs statement.innerRefs tree placed := by
    refine (grows.after_growth sets).mono (fun ref isAccess _ => ?_) fun ref isNewRef old => ?_
    · exact List.mem_singleton.1 isAccess ▸ mem_refs.2 ⟨access, within, rfl⟩
    · exact (isNew newRef (List.mem_singleton.1 isNewRef ▸ old)).elim
  obtain ⟨_, _, after, makesDecl, buildsDecl, typePlace, declaratorPlace, declPlace, rfl, rfl⟩ :=
    @Build.localDecl_makes placed (some call) "var" name (grown.stored stored)
      (StandsAll.singleton_iff.2 standsCall)
  have callInner : call.refs ⊆ statement.innerRefs := fun ref inside =>
    innerRefs_subset within (mem_innerRefs.2 ⟨call, held, inside⟩)
  refine ⟨⟨name, _, .node typePlace (.typeRef "var" [] 0),
    .node declaratorPlace (.declarator name (some call)), call, new, rfl, rfl, rfl, rfl⟩, after, ?_,
    rfl, rfl, fun inside => isNew newRef (stands.hasRef inside), ?_, buildsDecl.apart both, ?_⟩
  · rw [introduce, Change.get_bind, isCalled, Change.require_bind, Change.bind_of_edit makesName]
    exact (Change.bind_of_edit set).trans (congrArg Except.ok makesDecl)
  · refine grown.trans buildsDecl.frame (fun _ member => absurd member List.not_mem_nil)
      fun ref inside _ => ?_
    exact callInner (by simpa using inside)
  · intro ref inside old
    rw [List.flatMap_cons, List.mem_append] at inside
    rcases inside with inDecl | inside
    · have inCall := buildsDecl.origin ref (by simpa using inDecl) (old.of_frame grown)
      exact refs_subset callWithin (by simpa using inCall)
    · rcases inSwapped (by simpa using inside) with ⟨inStatement, -⟩ | inNew
      · exact inStatement
      · exact (isNew inNew old).elim

/-- Introducing temporaries one after the other leaves their declarations and the rest of the
statement. -/
theorem introduceAll_stands {tree : Tree} {statement call outer : Outline} {calls : List Ref}
    (names : List String) (stored : tree.Stored) (stands : tree.Stands statement)
    (climbs : Climbs call calls outer) (first : First outer statement) :
    ∃ temporaries rest after, introduceAll names (call.ref :: calls) tree
        = .ok (temporaries.map (·.declaration.ref), after) ∧
      Introduces temporaries call statement rest ∧
      temporaries.map (·.name) = names.take calls.length ∧
      rest.ref = statement.ref ∧ Frame statement.refs statement.innerRefs tree after ∧
      after.StandsAll (temporaries.map (·.declaration) ++ [rest]) ∧
      ∀ ref ∈ (temporaries.map (·.declaration) ++ [rest]).flatMap refs, tree.HasRef ref →
      ref ∈ statement.refs := by
  induction names generalizing tree statement call outer calls with
  | nil => exact ⟨[], statement, tree, rfl,
      .done, by simp, rfl, .refl tree, StandsAll.singleton_iff.2 stands,
      fun ref inside _ => by simpa using inside⟩
  | cons name names ih =>
    cases climbs with
    | top => exact ⟨[], statement, tree, rfl, .done, rfl, rfl, .refl tree,
      StandsAll.singleton_iff.2 stands,
      fun ref inside _ => by simpa using inside⟩
    | @up _ access next _ arguments member conditional calls isCall isAccess above =>
      have around := above.first first
      have made : MadeOn call next := ⟨_, _, _, _, isCall, isAccess⟩
      have receives := made.first
      have firstCall := receives.trans around
      obtain ⟨temporary, middle, makes, rfl, isValue, fresh, frame, standing, origin⟩ :=
        introduce_stands name stored stands around.mem_subterms isCall isAccess
      obtain ⟨standsDecl, standsRest, apart⟩ := StandsAll.cons_iff.1 standing
      replace standsRest := StandsAll.singleton_iff.1 standsRest
      replace apart : temporary.declaration.refs.Disjoint
        (swap call.ref temporary.use statement).refs := by simpa using apart
      have onceOuter := (stands.subterm first.mem_subterms).once
      have onceNext := (stands.subterm around.mem_subterms).once
      have below : call.ref ≠ outer.ref :=
        (above.eq_or_first.elim (fun same => same ▸ receives) receives.trans).leads.ref_ne onceOuter
      have sameRoot :=
        @ref_swap_of_ne call.ref temporary.use _ (firstCall.leads.ref_ne stands.once).symm
      obtain ⟨temporaries, rest, after, madeOthers, introduces, areNamed, sameRest, frameOthers,
        standingOthers, originOthers⟩ := @ih middle _ _ _ _ (frame.stored stored) standsRest
          (above.swap onceOuter receives.mem_subterms (receives.leads.ref_ne onceNext))
          (first.swap stands.once (subterms_trans above.mem_subterms receives.mem_subterms) below)
      have inStatement {ref : Ref} (inside : ref ∈ (swap call.ref temporary.use statement).refs)
          (old : tree.HasRef ref) :
          ref ∈ statement.refs := origin ref (by simp [inside]) old
      refine ⟨temporary :: temporaries, rest, after, ?_, .step isValue made around fresh introduces,
        ?_, sameRest.trans sameRoot, ?_, ?_, fun ref inside old => ?_⟩
      · rw [@ref_swap_of_ne call.ref temporary.use _ (receives.leads.ref_ne onceNext).symm]
          at madeOthers
        rw [introduceAll, Change.bind_of_ok makes, Change.bind_of_ok madeOthers]
        rfl
      · rw [List.map_cons, areNamed, List.length_cons, List.take_succ_cons]
      · refine frame.trans frameOthers (fun ref inside old => inStatement inside old)
          fun ref inside old => ?_
        have found := inStatement (innerRefs_subset_refs _ inside) old
        rw [refs_eq] at found
        refine (List.mem_cons.1 found).resolve_left fun isRoot => ?_
        exact ref_not_mem_innerRefs standsRest.once (sameRoot.trans isRoot.symm ▸ inside)
      · refine StandsAll.cons_iff.2 ⟨?_, standingOthers, fun ref inDecl inOthers => ?_⟩
        · refine standsDecl.of_frame frameOthers (fun ref inside => apart inside)
            fun ref inside isMoved => ?_
          exact apart (innerRefs_subset_refs _ inside) (innerRefs_subset_refs _ isMoved)
        · exact apart inDecl (originOthers ref inOthers (standsDecl.hasRef inDecl))
      · rw [List.map_cons, List.cons_append, List.flatMap_cons, List.mem_append] at inside
        rcases inside with inDecl | inOthers
        · exact origin ref (by simp [inDecl]) old
        · exact inStatement (originOthers ref inOthers (old.of_frame frame)) old

end Temporary

namespace Context

open Term Refactory.Tree

/-- What introducing temporaries makes of a program: a statement becomes the declarations and what
is left of it. -/
inductive UnchainsCalls (whole : Outline) : Outline → Prop
  /-- The statement with the chain. -/
  | intro {call statement rest term : Outline} {temporaries : List Introduced}
      (within : statement ∈ whole.subterms)
      (introduces : Introduces temporaries call statement rest)
      (becomes : Becomes whole statement (temporaries.map (·.declaration) ++ [rest]) term) :
      UnchainsCalls whole term

/-- Introducing temporaries for the calls of a chain gives a program and spares all but the
statement and the node above it. -/
theorem introduce_isProgram {tree : Tree} {whole statement call outer : Outline} {calls : List Ref}
    (names : List String) (program : tree.IsProgram whole) (within : statement ∈ whole.subterms)
    (climbs : Climbs call calls outer) (first : First outer statement) :
    ∃ after term temporaries rest, (do
        let declarations ← Temporary.introduceAll names (call.ref :: calls)
        Change.putBefore statement.ref declarations : Change Unit) tree = .ok ((), after) ∧
      after.IsProgram term ∧ Introduces temporaries call statement rest ∧
      temporaries.map (·.name) = names.take calls.length ∧ rest.ref = statement.ref ∧
      Becomes whole statement (temporaries.map (·.declaration) ++ [rest]) term ∧
      Spares tree after whole statement := by
  have stands := program.stands.subterm within
  obtain ⟨temporaries, rest, middle, made, introduces, areNamed, same, frame, standing, origin⟩ :=
    Temporary.introduceAll_stands names program.stored stands climbs first
  have prepares :
      Prepares tree middle whole statement (temporaries.map (·.declaration) ++ [rest]) := by
    refine ⟨⟨_, _, frame, fun _ _ inside =>
      inside, fun _ _ inside => innerRefs_subset_refs _ inside⟩, standing, fun ref inside inWhole =>
      origin ref inside (program.stands.hasRef inWhole)⟩
  have unmoved : middle.parent statement.ref = tree.parent statement.ref := by
    obtain ⟨number, inside, place⟩ := stands.hasRef (ref_mem_refs statement)
    rw [place]
    exact frame.parents number inside fun isMoved =>
      ref_not_mem_innerRefs stands.once (place ▸ isMoved)
  obtain ⟨after, term, put, isProgram, becomes, spares⟩ :=
    prepares.putBefore program within same unmoved
  refine ⟨after, term, temporaries, rest, ?_, isProgram, introduces, areNamed, same,
    becomes, spares⟩
  rw [Change.bind_of_ok made]
  rwa [List.map_map] at put

/-- A chain that is found at a node or below it is made of calls one on the other, up to a node. -/
theorem exists_climbs_of_callChain? {tree : Tree} {whole statement : Outline} {calls : List Ref}
    (program : tree.IsProgram whole) (within : statement ∈ whole.subterms)
    (found : tree.callChain? statement.ref = some calls) :
    ∃ call others outer rest, calls = call.ref :: others ∧ (tree.calledMember? call.ref).isSome ∧
    Climbs call others outer ∧ outer ∈ whole.subterms ∧ calls.reverse = outer.ref :: rest := by
  obtain ⟨ref, below, found⟩ := List.exists_of_findSome?_eq_some found
  obtain ⟨isCalls, long⟩ := Option.filter_eq_some_iff.1 found
  obtain rfl := Option.some.inj isCalls
  rw [(program.stands.subterm within).descendants] at below
  obtain ⟨outer, inside, rfl⟩ := mem_refs.1 below
  have outerWithin := subterms_trans within inside
  rcases climbs_of_callSpineWithin tree.depthBound (program.stands.subterm outerWithin).shown with
    none | ⟨call, others, spine, isCalled, climbs⟩
  · rw [callSpine, none] at long
    simp at long
  · obtain ⟨rest, isHead⟩ : ∃ rest, tree.callSpine outer.ref = outer.ref :: rest := by
      rw [callSpine, depthBound, callSpineWithin] at long ⊢
      cases isCall : tree.calledMember? outer.ref with
      | none =>
        rw [isCall] at long
        simp at long
      | some called => exact ⟨_, rfl⟩
    exact ⟨call, others, outer, rest, spine, isCalled, climbs, outerWithin,
      (List.reverse_reverse _).trans isHead⟩

/-- What introducing temporaries for the chain of calls in the statement of a node leaves: the
declarations of the temporaries and the rest of the statement are in the place of the statement, and
all else is spared. -/
structure UnchainsAt (context : Context) (whole : Outline) (ref : Ref) (result : Tree)
    (statement call rest term : Outline)
    (calls : List Ref) (temporaries : List Introduced) : Prop where
  /-- The statement is part of the program. -/
  within : statement ∈ whole.subterms
  /-- It is the one of the node. -/
  isSite : statement.ref = context.tree.statementOf ref
  /-- Temporaries can be put in front of it. -/
  canFollow : context.tree.canFollowTemporaries statement.ref = true
  /-- The chain is found in it. -/
  isChain : context.tree.callChain? statement.ref = some calls
  /-- It starts with a call of a member. -/
  isCalled : (context.tree.calledMember? call.ref).isSome
  /-- There is a temporary for every call but the last one, which has the name that is picked for
  it. -/
  areNamed : temporaries.map (·.name) =
    (context.namesAt statement.ref).pickMany context.settings.temporary (calls.length - 1)
  /-- The temporaries are introduced. -/
  introduces : Introduces temporaries call statement rest
  /-- The rest of the statement is where the statement was. -/
  same : rest.ref = statement.ref
  /-- The declarations come in front of it. -/
  becomes : Becomes whole statement (temporaries.map (·.declaration) ++ [rest]) term
  /-- The result is a program. -/
  program : result.IsProgram term
  /-- All but the statement and the node above it is spared. -/
  spares : Spares context.tree result whole statement

/-- Introducing temporaries is offered for a statement that they can be put in front of, and it puts
them there and spares all else. -/
theorem unchainCalls_puts {context : Context} {whole : Outline} {ref : Ref}
    (program : context.tree.IsProgram whole) (member : ref ∈ whole.refs) :
    Attempt.Gives (context.unchainCalls ref)
    (Offers fun result => ∃ statement call rest term calls temporaries,
      UnchainsAt context whole ref result statement call rest term calls temporaries) := by
  obtain ⟨statement, within, same⟩ := mem_refs.1 (program.statementOf_mem member)
  rw [unchainCalls]
  simp only [← same]
  split
  · rename_i canFollow
    split
    · rename_i calls outermost last _ found
      split
      · exact Attempt.refuse_offers _
      · rename_i isFirst
        split
        · exact Attempt.refuse_offers _
        · obtain ⟨calls, isChain, found⟩ := Option.map_eq_some_iff.1 found
          obtain ⟨rfl, isReverse⟩ := Prod.mk.inj found
          obtain ⟨call, others, outer, _, rfl, isCalled, climbs, outerWithin, isOuter⟩ :=
            exists_climbs_of_callChain? program within isChain
          obtain rfl := (List.cons.inj (isReverse.symm.trans isOuter)).1
          have first := (program.isEvaluatedFirst_iff outerWithin within).1 (by simpa using isFirst)
          rw [introduceTemporaries]
          refine (Attempt.noteAll_gives _).bind fun _ _ => ?_
          obtain ⟨after, term, temporaries, rest, changed, isProgram, introduces, areNamed, sameRef,
            becomes, spares⟩ :=
            introduce_isProgram _ program within climbs first
          refine Context.offer_offers
            ⟨after, changed, statement, call, rest, term, _, temporaries, within, same, canFollow,
            isChain, isCalled, ?_, introduces, sameRef, becomes, isProgram, spares⟩
          rw [areNamed, List.length_cons, Nat.add_sub_cancel,
            List.take_of_length_le (Nat.le_of_eq (NameScope.length_pickMany _ _ _))]
    · exact Attempt.none_offers
  · exact Attempt.none_offers

/-- Introducing temporaries is offered only with a program for its result, which has the
declarations and the rest of the statement in its place. -/
theorem unchainCalls_offers {context : Context} {whole : Outline} {ref : Ref}
    (program : context.tree.IsProgram whole) (member : ref ∈ whole.refs) :
    Attempt.Gives (context.unchainCalls ref)
      (Offers fun result => ∃ term, result.IsProgram term ∧ UnchainsCalls whole term) := by
  refine (unchainCalls_puts program member).mono fun offered offers action isOffered => ?_
  obtain ⟨_, _, _, term, _, _, unchains⟩ := offers action isOffered
  exact ⟨term, unchains.program, .intro unchains.within unchains.introduces unchains.becomes⟩

end Context

end Refactory
