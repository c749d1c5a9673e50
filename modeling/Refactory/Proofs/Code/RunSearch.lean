import Refactory.Proofs.Code.Denoting

/-!
# The run that a search finds

The calls of a method in a statement fall into maximal runs, each call being made on the result of
the one before (`Tree.IsMaximalRun`). A run is known by its outermost call, the only one that no
call of the method is made on, and this one comes before the others in pre-order
(`Tree.mem_runsIn_iff`). So a search for a run takes the runs in the order of their outermost calls,
once each, and comes to the first one whose arguments all denote functions that are accepted
(`CallRun.search_findsFirst`).
-/
namespace Refactory

namespace Tree

open Term

/-- A call is made on the result of an expression. -/
def IsMadeOn (tree : Tree) (call receiver : Ref) : Prop :=
  ∃ called, tree.calledMember? call = some called ∧ called.receiver = receiver

/-- A maximal run of calls of a method in the tree, innermost first. -/
structure IsMaximalRun (tree : Tree) (method : String) (calls : List Ref) : Prop where
  /-- There are two calls or more. -/
  several : 2 ≤ calls.length
  /-- They are in the tree. -/
  attached : calls ⊆ tree.attached
  /-- Each calls the method with one plain argument. -/
  areCalls : ∀ call ∈ calls, tree.isCallOf method call
  /-- Each but the first is made on the result of the one before. -/
  chained : calls.IsChain fun inner outer => tree.IsMadeOn outer inner
  /-- The first is made on no such call. -/
  starts : ∀ first ∈ calls.head?, ∀ receiver, tree.IsMadeOn first receiver →
    tree.isCallOf method receiver = false
  /-- No such call is made on the last. -/
  ends : ∀ last ∈ calls.getLast?, ∀ around ∈ tree.attached, tree.isCallOf method around →
    ¬ tree.IsMadeOn around last

/-- The calls of a method down the receivers of a call, outermost first, as far as they go. -/
inductive IsDescent (tree : Tree) (method : String) : List Ref → Prop
  /-- A call on no call of the method. -/
  | last {call : Ref} (isCall : tree.isCallOf method call)
      (stops : tree.isOnCallOf method call = false) :
      IsDescent tree method [call]
  /-- A call on another one. -/
  | on {call inner : Ref} {down : List Ref} (isCall : tree.isCallOf method call)
      (isMadeOn : tree.IsMadeOn call inner)
      (descent : IsDescent tree method (inner :: down)) :
      IsDescent tree method (call :: inner :: down)

section

variable {tree : Tree} {method : String} {call inner : Ref} {down other : List Ref}

/-- A call of a method is a call of a member. -/
theorem exists_isMadeOn (isCall : tree.isCallOf method call) :
    ∃ receiver, tree.IsMadeOn call receiver := by
  obtain ⟨called, isCalled, -⟩ := (Option.any_eq_true _ _).1 (Bool.and_eq_true_iff.1 isCall).1
  exact ⟨called.receiver, called, isCalled, rfl⟩

theorem IsMadeOn.isOnCallOf (isMadeOn : tree.IsMadeOn call inner) :
    tree.isOnCallOf method call = tree.isCallOf method inner := by
  obtain ⟨called, isCalled, rfl⟩ := isMadeOn
  rw [Tree.isOnCallOf, isCalled, Option.any_some]

/-- A call is made on one expression. -/
theorem IsMadeOn.unique {inner' : Ref} (isMadeOn : tree.IsMadeOn call inner)
    (isMadeOn' : tree.IsMadeOn call inner') :
    inner = inner' := by
  obtain ⟨called, isCalled, rfl⟩ := isMadeOn
  obtain ⟨called', isCalled', rfl⟩ := isMadeOn'
  rw [Option.some.inj (isCalled.symm.trans isCalled')]

namespace IsDescent

theorem isCall (descent : tree.IsDescent method down) :
    ∀ call ∈ down, tree.isCallOf method call := by
  induction descent with
  | last isCall => simpa using isCall
  | on isCall _ _ ih => exact List.forall_mem_cons.2 ⟨isCall, ih⟩

theorem chained (descent : tree.IsDescent method down) : down.IsChain tree.IsMadeOn := by
  induction descent with
  | last => exact .singleton _
  | on _ isMadeOn _ ih => exact .cons_cons isMadeOn ih

theorem stops (descent : tree.IsDescent method down) :
    ∀ last ∈ down.getLast?, tree.isOnCallOf method last = false := by
  induction descent with
  | last _ stops =>
    rintro _ ⟨rfl⟩
    exact stops
  | on _ _ _ ih => simpa using ih

/-- Calls each of which is made on the next one are a descent when the last is made on none. -/
theorem of_chained (present : down ≠ []) (areCalls : ∀ call ∈ down, tree.isCallOf method call)
    (chained : down.IsChain tree.IsMadeOn)
    (stops : ∀ last ∈ down.getLast?, tree.isOnCallOf method last = false) :
    tree.IsDescent method down := by
  induction down with
  | nil => exact absurd rfl present
  | cons call down ih =>
    obtain ⟨isCall, areCalls⟩ := List.forall_mem_cons.1 areCalls
    cases down with
    | nil => exact .last isCall (stops call rfl)
    | cons inner down =>
      obtain ⟨isMadeOn, chained⟩ := List.isChain_cons_cons.1 chained
      exact .on isCall isMadeOn (ih (List.cons_ne_nil _ _) areCalls chained (by simpa using stops))

/-- From a call there is one way down. -/
theorem unique (descent : tree.IsDescent method (call :: down))
    (descent' : tree.IsDescent method (call :: other)) :
    down = other := by
  induction down generalizing call other with
  | nil =>
    cases descent with
    | last _ stops =>
      cases descent' with
      | last => rfl
      | on _ isMadeOn below =>
        rw [isMadeOn.isOnCallOf, below.isCall _ (.head _)] at stops
        cases stops
  | cons inner down ih =>
    cases descent with
    | on _ isMadeOn below =>
      cases descent' with
      | last _ stops =>
        rw [isMadeOn.isOnCallOf, below.isCall _ (.head _)] at stops
        cases stops
      | on _ isMadeOn' below' =>
        obtain rfl := isMadeOn.unique isMadeOn'
        rw [ih below below']

/-- All but the first call are what some call is made on. -/
theorem exists_around (descent : tree.IsDescent method (call :: down)) (member : inner ∈ down) :
    ∃ around ∈ call :: down, tree.IsMadeOn around inner := by
  induction down generalizing call with
  | nil => cases member
  | cons next down ih =>
    cases descent with
    | on _ isMadeOn below =>
      rcases List.mem_cons.1 member with rfl | member
      · exact ⟨call, .head _, isMadeOn⟩
      · obtain ⟨around, isMember, isMadeOn⟩ := ih below member
        exact ⟨around, .tail _ isMember, isMadeOn⟩

end IsDescent

/-- The calls found on the way down from a call are a descent into it. -/
theorem exists_isDescent {term : Outline} (shown : term.All tree.Shows)
    (isCall : tree.isCallOf method term.ref) (bound : Nat) (enough : term.subterms.length ≤ bound) :
    ∃ down, (tree.callsDownWithin method bound term.ref).map (·.1) = term.ref :: down ∧
      tree.IsDescent method (term.ref :: down) ∧ down ⊆ term.innerRefs := by
  induction bound generalizing term with
  | zero =>
    rw [subterms_eq] at enough
    exact absurd enough (Nat.not_succ_le_zero _)
  | succ bound ih =>
    obtain ⟨receiver, called, isCalled, isReceiver⟩ := exists_isMadeOn isCall
    obtain ⟨access, child, arguments, form, formAccess, -, isChild⟩ :=
      calledMember?_eq_some shown isCalled
    rw [callsDownWithin, if_pos isCall, isCalled]
    dsimp only
    rw [List.map_cons]
    have isMadeOn : tree.IsMadeOn term.ref called.receiver := ⟨called, isCalled, rfl⟩
    cases isInner : tree.isCallOf method called.receiver with
    | false =>
      have none : tree.callsDownWithin method bound called.receiver = [] := by
        cases bound with
        | zero => rfl
        | succ bound => rw [callsDownWithin, isInner, if_neg Bool.false_ne_true]
      exact
        ⟨[], by rw [none]; rfl, .last isCall (isMadeOn.isOnCallOf.trans isInner), List.nil_subset _⟩
    | true =>
      obtain ⟨inner, rfl⟩ : ∃ inner, child = some inner := by
        cases child with
        | none => rw [isChild] at isInner; cases isInner
        | some inner => exact ⟨inner, rfl⟩
      have heldAccess : access ∈ term.children := by simp [Term.children, form, parts]
      have heldInner : inner ∈ access.children := by simp [Term.children, formAccess, parts]
      have shorter := Nat.lt_trans (length_subterms_lt heldInner) (length_subterms_lt heldAccess)
      rw [isChild, refOf_some] at isInner isMadeOn ⊢
      obtain ⟨down, found, descent, inside⟩ :=
        ih ((shown.child heldAccess).child heldInner) isInner (by omega)
      have within : inner.refs ⊆ term.innerRefs := fun ref member =>
        List.mem_flatMap.2 ⟨access, heldAccess, refs_subset (child_mem_subterms heldInner) member⟩
      refine ⟨inner.ref :: down, by rw [found], .on isCall isMadeOn descent,
        List.cons_subset.2 ⟨within (ref_mem_refs inner), ?_⟩⟩
      exact List.Subset.trans inside (List.Subset.trans (innerRefs_subset_refs inner) within)

end

namespace IsProgram

variable {tree : Tree} {whole part outer container : Outline} {method : String} {call : Ref}

/-- What a call is made on is the receiver of the member access that it calls. -/
theorem exists_access (program : tree.IsProgram whole) (within : part ∈ whole.subterms)
    (around : outer ∈ whole.subterms) (isMadeOn : tree.IsMadeOn outer.ref part.ref) :
    ∃ access ∈ outer.children, part ∈ access.children ∧
      ∃ called, tree.calledMember? outer.ref = some called ∧
        tree.kind access.ref = .member part.ref called.name called.conditional := by
  obtain ⟨called, isCalled, isReceiver⟩ := isMadeOn
  have standsOuter := program.stands.subterm around
  obtain ⟨access, child, arguments, form, formAccess, -, isChild⟩ :=
    calledMember?_eq_some standsOuter.shown isCalled
  have heldAccess : access ∈ outer.children := by simp [Term.children, form, parts]
  have standsAccess := standsOuter.subterm (child_mem_subterms heldAccess)
  rw [isReceiver] at isChild
  obtain ⟨inner, rfl⟩ : ∃ inner, child = some inner := by
    cases child with
    | none => exact absurd isChild (program.stands.shows within).hasRef.ne_none
    | some inner => exact ⟨inner, rfl⟩
  have heldInner : inner ∈ access.children := by simp [Term.children, formAccess, parts]
  have inWhole :=
    subterms_trans around (mem_subterms_of_child heldAccess (child_mem_subterms heldInner))
  obtain rfl := subterm_unique program.stands.once within inWhole isChild
  have depicts := standsAccess.shown.here.depicts
  rw [formAccess] at depicts
  exact ⟨access, heldAccess, heldInner, called, isCalled, depicts.of_member⟩

/-- The call of a method that is found around a part is the one that is made on it. -/
theorem callAround?_eq_some_iff (program : tree.IsProgram whole) (within : part ∈ whole.subterms)
    {around : Ref} :
    tree.callAround? method part.ref = some around ↔ ∃ outer ∈ whole.subterms, outer.ref = around ∧
      tree.isCallOf method around ∧ tree.IsMadeOn around part.ref := by
  constructor
  · intro found
    rw [callAround?] at found
    split at found
    · cases found
    rename_i present
    rcases program.parent_cases within with ⟨-, top⟩ | ⟨access, inside, held, up⟩
    · exact absurd top present
    rw [up] at found
    split at found
    · rename_i receiver name conditional isAccess
      simp only [Bool.and_eq_true, decide_eq_true_eq] at found
      split at found
      · rename_i isAround
        obtain ⟨⟨rfl, rfl⟩, isCall⟩ := isAround
        obtain rfl := Option.some.inj found
        have depicts := (program.stands.shows inside).depicts
        rw [isAccess] at depicts
        obtain ⟨child, formAccess, isChild⟩ := depicts.member
        rcases program.parent_cases inside with ⟨-, top⟩ | ⟨outer, isPart, heldAccess, upAccess⟩
        · rw [top] at isCall
          cases isCall
        rw [upAccess] at isCall ⊢
        have standsOuter := program.stands.subterm isPart
        -- Of the two children of the call, the access is not the argument.
        have calls := isCall
        rw [isCallOf_eq standsOuter.shown, callsMethod] at calls
        split at calls
        · rename_i callee argument form
          have children : outer.children = [callee, argument] := by
            simp [Term.children, form, parts]
          rw [children] at heldAccess
          rcases List.mem_pair.1 heldAccess with rfl | rfl
          · have isCalled := calledMember?_of_form standsOuter.shown form formAccess
            exact ⟨outer, isPart, rfl, isCall, _, isCalled, isChild⟩
          · rw [formAccess] at calls
            simp [Kind.isPlainArgument] at calls
        · cases calls
      · cases found
    · cases found
  · rintro ⟨outer, isPart, rfl, isCall, isMadeOn⟩
    obtain ⟨access, heldAccess, held, called, isCalled, isAccess⟩ :=
      program.exists_access within isPart isMadeOn
    have isName : called.name = method := by
      have calls := (Bool.and_eq_true_iff.1 isCall).1
      rwa [isCalled, Option.any_some, beq_iff_eq] at calls
    have up := program.stands.parent (subterms_child isPart heldAccess) held
    have upAccess := program.stands.parent isPart heldAccess
    obtain ⟨number, -, isRef⟩ := (program.stands.shows (subterms_child isPart heldAccess)).hasRef
    rw [callAround?, up, isRef]
    dsimp only
    rw [← isRef, isAccess]
    dsimp only
    rw [upAccess, isCall, isName]
    simp

/-- The way down from a call is part of the way down from the last call that is met on the way
up. -/
theorem exists_climb (program : tree.IsProgram whole) (bound : Nat) {down : List Ref}
    (member : call ∈ whole.refs)
    (descent : tree.IsDescent method (call :: down)) : ∃ rest,
      tree.IsDescent method (tree.outermostCallWithin method bound call :: rest) ∧
        call :: down ⊆ tree.outermostCallWithin method bound call :: rest := by
  induction bound generalizing call down with
  | zero => exact ⟨down, descent, List.Subset.refl _⟩
  | succ bound ih =>
    rw [outermostCallWithin]
    split
    · rename_i around found
      obtain ⟨part, within, rfl⟩ := mem_refs.1 member
      obtain ⟨outer, isPart, rfl, isCall, isMadeOn⟩ :=
        (program.callAround?_eq_some_iff within).1 found
      obtain ⟨rest, descent, inside⟩ :=
        ih (mem_refs.2 ⟨outer, isPart, rfl⟩) (.on isCall isMadeOn descent)
      exact ⟨rest, descent, List.Subset.trans (List.subset_cons_self _ _) inside⟩
    · exact ⟨down, descent, List.Subset.refl _⟩

/-- No call of the method is made on the last call that is met on the way up, when the way is as
long as it may be. -/
theorem callAround?_outermostCallWithin (program : tree.IsProgram whole) {bound : Nat}
    (within : part ∈ whole.subterms)
    (enough : whole.subterms.length < part.subterms.length + bound) :
    tree.callAround? method (tree.outermostCallWithin method bound part.ref) = none := by
  induction bound generalizing part with
  | zero => exact absurd (subterms_sublist within).length_le (Nat.not_le.2 enough)
  | succ bound ih =>
    rw [outermostCallWithin]
    split
    · rename_i found
      obtain ⟨outer, isPart, rfl, -, isMadeOn⟩ := (program.callAround?_eq_some_iff within).1 found
      obtain ⟨access, heldAccess, held, -⟩ := program.exists_access within isPart isMadeOn
      have longer := Nat.lt_trans (length_subterms_lt held) (length_subterms_lt heldAccess)
      exact ih isPart (by omega)
    · assumption

theorem callAround?_outermostCall (program : tree.IsProgram whole) (member : call ∈ whole.refs) :
    tree.callAround? method (tree.outermostCall method call) = none := by
  obtain ⟨part, within, rfl⟩ := mem_refs.1 member
  refine program.callAround?_outermostCallWithin within ?_
  have short := program.stands.length_le
  rw [depthBound]
  omega

end IsProgram

/-! ### The runs in a node -/

/-- What comes in a list before something that occurs once comes in the part before it. -/
theorem mem_of_pair_sublist {α : Type} {first second : α} {done rest : List α}
    (sublist : [first, second].Sublist (done ++ second :: rest))
    (once : (done ++ second :: rest).Nodup) : first ∈ done := by
  obtain ⟨front, back, split, inDone, inRest⟩ := List.sublist_append_iff.1 sublist
  cases front with
  | cons head front =>
    obtain ⟨rfl, -⟩ := List.cons.inj split
    exact inDone.subset (.head _)
  | nil =>
    obtain rfl := split
    -- Both would come from the second on, and there is only one of it.
    have notRest := (List.nodup_cons.1 (List.nodup_append.1 once).2.1).1
    cases inRest with
    | cons _ inRest => exact absurd (inRest.subset (by simp)) notRest
    | cons_cons _ inRest => exact absurd (inRest.subset (by simp)) notRest

/-- Whether a call is the outermost call of a run. -/
def isRunHead (tree : Tree) (method : String) (call : Ref) : Bool :=
  tree.isOnCallOf method call && (tree.callAround? method call).isNone

/-- The calls of the run that a call belongs to, innermost first. -/
def runOf (tree : Tree) (method : String) (call : Ref) : List Ref :=
    (tree.runCalls method call).map (·.1)

/-- The runs of calls of a method in a node, in the order of their outermost calls. -/
def runsIn (tree : Tree) (method : String) (container : Ref) : List (List Ref) :=
  ((tree.callsOf method container).filter (tree.isRunHead method)).map (tree.runOf method)

section

variable {tree : Tree} {whole part outer container : Outline} {method : String} {call : Ref}
  (program : tree.IsProgram whole)

include program

/-- The run of a call goes down from the outermost call, and has the call in it. -/
theorem IsProgram.exists_runOf (member : call ∈ whole.refs) (isCall : tree.isCallOf method call) :
    ∃ rest, tree.runOf method call = (tree.outermostCall method call :: rest).reverse ∧
      tree.IsDescent method (tree.outermostCall method call :: rest) ∧
      call ∈ tree.outermostCall method call :: rest ∧ ∀ outer ∈ whole.subterms,
      outer.ref = tree.outermostCall method call → rest ⊆ outer.innerRefs := by
  obtain ⟨part, within, rfl⟩ := mem_refs.1 member
  obtain ⟨down, -, descent, -⟩ :=
    exists_isDescent (program.stands.subterm within).shown isCall _ (Nat.le_refl _)
  obtain ⟨rest, descent, inside⟩ := program.exists_climb tree.depthBound member descent
  obtain ⟨outer, isPart, same⟩ :=
    mem_refs.1 (@IsProgram.outermostCall_mem tree whole method part.ref program member)
  change tree.IsDescent method (tree.outermostCall method part.ref :: rest) at descent
  have isOuter := descent.isCall _ (.head _)
  rw [← same] at descent isOuter
  have standsOuter := program.stands.subterm isPart
  obtain ⟨rest', found, descent', below⟩ :=
    exists_isDescent standsOuter.shown isOuter tree.depthBound
      (Nat.le_succ_of_le standsOuter.length_le)
  obtain rfl := descent.unique descent'
  refine ⟨rest, ?_, same ▸ descent, inside (.head _), fun other isOther sameOther => ?_⟩
  · rw [runOf, runCalls, ← same, List.map_reverse, found]
  · obtain rfl := subterm_unique program.stands.once isPart isOther (same.trans sameOther.symm)
    exact below

omit program in
/-- A call that no call of the method is made on is the outermost of its run. -/
theorem outermostCall_of_isRunHead (isHead : tree.isRunHead method call) :
    tree.outermostCall method call = call := by
  rw [isRunHead, Bool.and_eq_true, Option.isNone_iff_eq_none] at isHead
  rw [outermostCall, depthBound, outermostCallWithin, isHead.2]

/-- The outermost call of a run heads it. -/
theorem IsProgram.isRunHead_outermostCall (member : call ∈ whole.refs)
    (isCall : tree.isCallOf method call) (isOnCall : tree.isOnCallOf method call) :
    tree.isRunHead method (tree.outermostCall method call) := by
  obtain ⟨rest, -, descent, inside, -⟩ := program.exists_runOf member isCall
  rw [isRunHead, Bool.and_eq_true, Option.isNone_iff_eq_none]
  refine ⟨?_, program.callAround?_outermostCall member⟩
  cases descent with
  | last => rwa [← List.mem_singleton.1 inside]
  | on _ isMadeOn below => exact isMadeOn.isOnCallOf.trans (below.isCall _ (.head _))

/-- A maximal run is a descent from a call that heads it, read backwards. -/
theorem IsProgram.isMaximalRun_iff {calls : List Ref} : tree.IsMaximalRun method calls ↔
    ∃ head rest, calls = (head :: rest).reverse ∧ tree.IsDescent method (head :: rest) ∧
    tree.isRunHead method head ∧ head :: rest ⊆ whole.refs := by
  constructor
  · intro run
    obtain ⟨head, rest, isReverse⟩ : ∃ head rest, calls.reverse = head :: rest :=
      List.exists_cons_of_length_pos
        (by rw [List.length_reverse]; exact Nat.lt_of_lt_of_le Nat.zero_lt_two run.several)
    have isCalls : calls = (head :: rest).reverse := by rw [← isReverse, List.reverse_reverse]
    have inside : head :: rest ⊆ whole.refs := by
      rw [← isReverse, ← program.attached]
      exact fun call member => run.attached (List.mem_reverse.1 member)
    have descent : tree.IsDescent method (head :: rest) := by
      refine .of_chained (List.cons_ne_nil _ _) (fun call member => run.areCalls call ?_) ?_
        fun first isFirst => ?_
      · rwa [isCalls, List.mem_reverse]
      · rw [← isReverse, List.isChain_reverse]
        exact run.chained
      · rw [← isReverse, List.getLast?_reverse] at isFirst
        have isFirstCall : first ∈ head :: rest := by
          rw [← isReverse, List.mem_reverse]
          exact List.mem_of_mem_head? isFirst
        obtain ⟨receiver, isMadeOn⟩ :=
          exists_isMadeOn (run.areCalls first (isCalls ▸ List.mem_reverse.2 isFirstCall))
        exact isMadeOn.isOnCallOf.trans (run.starts first isFirst receiver isMadeOn)
    refine ⟨head, rest, isCalls, descent, ?_, inside⟩
    rw [isRunHead, Bool.and_eq_true, Option.isNone_iff_eq_none]
    constructor
    · cases descent with
      | last =>
        have several := run.several
        rw [isCalls] at several
        exact absurd several (Nat.not_succ_le_self 1)
      | on _ isMadeOn below => exact isMadeOn.isOnCallOf.trans (below.isCall _ (.head _))
    · obtain ⟨part, within, rfl⟩ := mem_refs.1 (inside (.head _))
      refine Option.eq_none_iff_forall_ne_some.2 fun around found => ?_
      obtain ⟨outer, isPart, rfl, isCall, isMadeOn⟩ :=
        (program.callAround?_eq_some_iff within).1 found
      refine run.ends part.ref ?_ outer.ref ?_ isCall isMadeOn
      · rw [isCalls, List.getLast?_reverse]
        rfl
      · rw [program.attached]
        exact mem_refs.2 ⟨outer, isPart, rfl⟩
  · rintro ⟨head, rest, rfl, descent, isHead, inside⟩
    rw [isRunHead, Bool.and_eq_true, Option.isNone_iff_eq_none] at isHead
    refine ⟨?_, ?_, fun call member => descent.isCall call (List.mem_reverse.1 member), ?_, ?_, ?_⟩
    · rw [List.length_reverse]
      cases descent with
      | last _ stops =>
        rw [isHead.1] at stops
        cases stops
      | on => exact Nat.succ_le_succ (Nat.succ_le_succ (Nat.zero_le _))
    · rw [program.attached]
      exact fun call member => inside (List.mem_reverse.1 member)
    · rw [List.isChain_reverse]
      exact descent.chained
    · intro first isFirst receiver isMadeOn
      rw [List.head?_reverse] at isFirst
      exact isMadeOn.isOnCallOf.symm.trans (descent.stops first isFirst)
    · intro last isLast around attached isCall isMadeOn
      rw [List.getLast?_reverse] at isLast
      obtain rfl := Option.some.inj isLast
      rw [program.attached] at attached
      obtain ⟨outer, isPart, rfl⟩ := mem_refs.1 attached
      obtain ⟨part, within, rfl⟩ := mem_refs.1 (inside (.head _))
      have found :=
        (program.callAround?_eq_some_iff within).2 ⟨outer, isPart, rfl, isCall, isMadeOn⟩
      rw [isHead.2] at found
      cases found

variable (within : container ∈ whole.subterms)

include within

/-- The run of the call that heads it. -/
theorem IsProgram.exists_runOf_head
    (member : call ∈ (tree.callsOf method container.ref).filter (tree.isRunHead method)) :
    ∃ rest, tree.runOf method call = (call :: rest).reverse ∧ tree.IsDescent method (call :: rest) ∧
      call :: rest ⊆ container.refs := by
  obtain ⟨isCandidate, isHead⟩ := List.mem_filter.1 member
  obtain ⟨inside, isCall⟩ := List.mem_filter.1 isCandidate
  rw [(program.stands.subterm within).descendants] at inside
  obtain ⟨part, isPart, rfl⟩ := mem_refs.1 inside
  have isPartOfWhole := subterms_trans within isPart
  obtain ⟨rest, isRun, descent, -, below⟩ :=
    program.exists_runOf (mem_refs.2 ⟨part, isPartOfWhole, rfl⟩) isCall
  rw [outermostCall_of_isRunHead isHead] at isRun descent below
  refine ⟨rest, isRun, descent, List.cons_subset.2 ⟨inside, ?_⟩⟩
  exact List.Subset.trans (below part isPartOfWhole rfl)
    (List.Subset.trans (innerRefs_subset_refs part) (refs_subset isPart))

/-- The runs in a node are the maximal runs all of whose calls are in it. -/
theorem IsProgram.mem_runsIn_iff {calls : List Ref} : calls ∈ tree.runsIn method container.ref ↔
    tree.IsMaximalRun method calls ∧ calls ⊆ tree.descendants container.ref := by
  rw [program.isMaximalRun_iff, (program.stands.subterm within).descendants, runsIn, List.mem_map]
  constructor
  · rintro ⟨head, member, rfl⟩
    obtain ⟨rest, isRun, descent, inside⟩ := program.exists_runOf_head within member
    refine ⟨⟨head, rest, isRun, descent, (List.mem_filter.1 member).2, ?_⟩, ?_⟩
    · exact List.Subset.trans inside (refs_subset within)
    · rw [isRun]
      exact fun call member => inside (List.mem_reverse.1 member)
  · rintro ⟨⟨head, rest, rfl, descent, isHead, -⟩, inside⟩
    have isCandidate : head ∈ tree.callsOf method container.ref := by
      refine List.mem_filter.2 ⟨?_, descent.isCall _ (.head _)⟩
      rw [(program.stands.subterm within).descendants]
      exact inside (List.mem_reverse.2 (.head _))
    have member := List.mem_filter.2 ⟨isCandidate, isHead⟩
    obtain ⟨rest', isRun, descent', -⟩ := program.exists_runOf_head within member
    obtain rfl := descent.unique descent'
    exact ⟨head, member, isRun⟩

/-- The outermost calls of the runs are in pre-order. -/
theorem IsProgram.runsIn_sublist :
    ((tree.runsIn method container.ref).filterMap List.getLast?).Sublist
    (tree.descendants container.ref) := by
  have heads : (tree.runsIn method container.ref).filterMap List.getLast? =
      (tree.callsOf method container.ref).filter (tree.isRunHead method) := by
    rw [runsIn, List.filterMap_map, List.filterMap_congr (g := some) fun head member =>
      ?_, List.filterMap_some]
    obtain ⟨rest, isRun, -⟩ := program.exists_runOf_head within member
    rw [Function.comp_apply, isRun, List.getLast?_reverse]
    rfl
  rw [heads]
  exact List.filter_sublist.trans List.filter_sublist

/-- From a call in what is no expression the outermost call of its run is in it too. -/
theorem IsProgram.outermostCall_mem_refs (other : container.kind.isExpression = false)
    (inside : call ∈ container.refs)
    (isCall : tree.isCallOf method call) : tree.outermostCall method call ∈ container.refs := by
  obtain ⟨part, isPart, rfl⟩ := mem_refs.1 inside
  obtain ⟨outer, isOuter, same, ascends⟩ :=
    @IsProgram.ascends_outermostCall tree whole part method program (subterms_trans within isPart)
  have isExpression :=
    isExpression_of_isCallOf ((program.stands.subterm within).subterm isPart).shown isCall
  rw [← same]
  exact mem_refs.2
    ⟨outer, (ascends isExpression).within program.stands within isOuter other isPart, rfl⟩

/-- The outermost call of a run is met before its other calls. -/
theorem IsProgram.outermostCall_mem_done (other : container.kind.isExpression = false)
    {done candidates : List Ref}
    (split : tree.callsOf method container.ref = done ++ call :: candidates)
    (notHead : tree.outermostCall method call ≠ call) :
    tree.outermostCall method call ∈ done := by
  have once := (program.stands.subterm within).once
  have member : call ∈ tree.callsOf method container.ref := by simp [split]
  obtain ⟨inside, isCall⟩ := List.mem_filter.1 member
  rw [(program.stands.subterm within).descendants] at inside
  obtain ⟨outer, isPart, same⟩ :=
    mem_refs.1 (program.outermostCall_mem_refs within other inside isCall)
  obtain ⟨rest, -, descent, isRest, below⟩ :=
    program.exists_runOf (refs_subset within inside) isCall
  have isBelow : call ∈ outer.innerRefs := below outer (subterms_trans within isPart) same
    ((List.mem_cons.1 isRest).resolve_left (Ne.symm notHead))
  have before : [tree.outermostCall method call, call].Sublist container.refs := by
    refine List.Sublist.trans ?_ (refs_sublist isPart)
    rw [refs_eq, same]
    exact .cons_cons _ (List.singleton_sublist.2 isBelow)
  have before := before.filter (tree.isCallOf method)
  rw [List.filter_cons_of_pos (descent.isCall _ (.head _)), List.filter_cons_of_pos isCall,
    List.filter_nil, ← (program.stands.subterm within).descendants] at before
  change List.Sublist _ (tree.callsOf method container.ref) at before
  have onceCalls : (tree.callsOf method container.ref).Nodup := by
    rw [callsOf, (program.stands.subterm within).descendants]
    exact once.filter _
  rw [split] at before onceCalls
  exact mem_of_pair_sublist before onceCalls

end

/-- The calls that were visited are those of the runs of the heads that were met. -/
def Visited (tree : Tree) (method : String) (done seen : List Ref) : Prop :=
  ∀ call, call ∈ seen ↔ ∃ head ∈ done, tree.isRunHead method head ∧ call ∈ tree.runOf method head

section

variable {tree : Tree} {whole container : Outline} {method : String} {call : Ref}
  {done seen candidates : List Ref}

/-- A call that heads no run brings no calls. -/
theorem Visited.skip (visited : tree.Visited method done seen)
    (notHead : tree.isRunHead method call = false) :
    tree.Visited method (done ++ [call]) seen := by
  intro other
  rw [visited]
  constructor
  · rintro ⟨head, isDone, found⟩
    exact ⟨head, List.mem_append_left _ isDone, found⟩
  · rintro ⟨head, isDone, isHead, found⟩
    rcases List.mem_append.1 isDone with isDone | isCall
    · exact ⟨head, isDone, isHead, found⟩
    · rw [List.mem_singleton.1 isCall, notHead] at isHead
      cases isHead

/-- One that heads a run brings the calls of the run. -/
theorem Visited.visit (visited : tree.Visited method done seen)
    (isHead : tree.isRunHead method call) :
    tree.Visited method (done ++ [call]) (tree.runOf method call ++ seen) := by
  intro other
  rw [List.mem_append, visited]
  constructor
  · rintro (inRun | ⟨head, isDone, found⟩)
    · exact ⟨call, by simp, isHead, inRun⟩
    · exact ⟨head, List.mem_append_left _ isDone, found⟩
  · rintro ⟨head, isDone, isHead, found⟩
    rcases List.mem_append.1 isDone with isDone | isCall
    · exact .inr ⟨head, isDone, isHead, found⟩
    · exact .inl (List.mem_singleton.1 isCall ▸ found)

/-- A search leaves out a call exactly when it heads no run: it is made on no call of the method, or
its run was visited with the call that heads it, which was met before. -/
theorem IsProgram.skips_eq (program : tree.IsProgram whole) (within : container ∈ whole.subterms)
    (other : container.kind.isExpression = false)
    (split : tree.callsOf method container.ref = done ++ call :: candidates)
    (visited : tree.Visited method done seen) :
    (seen.contains call || !tree.isOnCallOf method call) = !tree.isRunHead method call := by
  have isCandidate : call ∈ tree.callsOf method container.ref := by simp [split]
  obtain ⟨inside, isCall⟩ := List.mem_filter.1 isCandidate
  rw [(program.stands.subterm within).descendants] at inside
  have member := refs_subset within inside
  cases isHead : tree.isRunHead method call with
  | false =>
    rw [Bool.not_false, Bool.or_eq_true, Bool.not_eq_true', List.contains_iff_mem]
    cases isOnCall : tree.isOnCallOf method call with
    | false => exact .inr rfl
    | true =>
      have headed := program.isRunHead_outermostCall member isCall isOnCall
      have notSame : tree.outermostCall method call ≠ call := fun same => by
        rw [same, isHead] at headed
        cases headed
      obtain ⟨rest, isRun, -, inRun, -⟩ := program.exists_runOf member isCall
      refine .inl ((visited call).2
        ⟨_, program.outermostCall_mem_done within other split notSame, headed, ?_⟩)
      rw [runOf, runCalls, outermostCall_of_isRunHead headed]
      change call ∈ tree.runOf method call
      rw [isRun, List.mem_reverse]
      exact inRun
  | true =>
    have headed := isHead
    rw [isRunHead, Bool.and_eq_true, Option.isNone_iff_eq_none] at headed
    rw [Bool.not_true, Bool.or_eq_false_iff, headed.1]
    refine ⟨Bool.eq_false_iff.2 fun isSeen => ?_, rfl⟩
    obtain ⟨head, isDone, isHead', inRun⟩ := (visited call).1 (List.contains_iff_mem.1 isSeen)
    have isHeadCandidate :
        head ∈ (tree.callsOf method container.ref).filter (tree.isRunHead method) :=
      List.mem_filter.2 ⟨by simp [split, isDone], isHead'⟩
    obtain ⟨rest, isRun, descent, below⟩ := program.exists_runOf_head within isHeadCandidate
    rw [isRun, List.mem_reverse] at inRun
    rcases List.mem_cons.1 inRun with rfl | inRest
    · have once : (tree.callsOf method container.ref).Nodup := by
        rw [callsOf, (program.stands.subterm within).descendants]
        exact (program.stands.subterm within).once.filter _
      rw [split] at once
      exact (List.nodup_append.1 once).2.2 _ isDone _ (.head _) rfl
    · -- A call further down is what another one is made on.
      obtain ⟨around, isAround, isMadeOn⟩ := descent.exists_around inRest
      obtain ⟨part, isPart, rfl⟩ := mem_refs.1 member
      obtain ⟨outer, isOuter, rfl⟩ := mem_refs.1 (refs_subset within (below isAround))
      have found := (program.callAround?_eq_some_iff isPart).2
        ⟨outer, isOuter, rfl, descent.isCall _ isAround, isMadeOn⟩
      rw [headed.2] at found
      cases found

end

end Tree

/-! ### The functions of a run -/

namespace CallRun

/-- The arguments of calls denote functions that are accepted, the first of them at the given place.
What is added to the tree for one of them is there for the next. -/
inductive Normalises (model : Model) (placeholder : String) (accepts : Acceptance) :
    Nat → List Ref → Tree → List Abstraction → Tree → Prop
  /-- No calls. -/
  | nil {place : Nat} {tree : Tree} : Normalises model placeholder accepts place [] tree [] tree
  /-- A call in front of others. -/
  | cons {place : Nat} {call value : Ref} {calls : List Ref} {before middle after : Tree}
      {function : Abstraction}
      {functions : List Abstraction} (passes : before.singleArgument? call = some value)
      (denotes : Abstraction.of? model placeholder value before = (some function, middle))
      (accepted : accepts middle function place)
      (others : Normalises model placeholder accepts (place + 1) calls middle functions after) :
      Normalises model placeholder accepts place (call :: calls) before
        (function :: functions) after

/-- One of the arguments of calls denotes no function, or one that is not accepted, and those before
denote functions that are. -/
inductive Rejects (model : Model) (placeholder : String)
    (accepts : Acceptance) : Nat → List Ref → Tree → Tree → Prop
  /-- The argument of the first call denotes no function. -/
  | nothing {place : Nat} {call value : Ref} {calls : List Ref} {before after : Tree}
      (passes : before.singleArgument? call = some value)
      (denotes : Abstraction.of? model placeholder value before = (none, after)) :
      Rejects model placeholder accepts place (call :: calls) before after
  /-- Its function is not accepted. -/
  | refused {place : Nat} {call value : Ref} {calls : List Ref} {before after : Tree}
      {function : Abstraction}
      (passes : before.singleArgument? call = some value)
      (denotes : Abstraction.of? model placeholder value before = (some function, after))
      (refused : accepts after function place = false) :
      Rejects model placeholder accepts place (call :: calls) before after
  /-- The argument of a later call is the reason. -/
  | later {place : Nat} {call value : Ref} {calls : List Ref} {before middle after : Tree}
      {function : Abstraction}
      (passes : before.singleArgument? call = some value)
      (denotes : Abstraction.of? model placeholder value before = (some function, middle))
      (accepted : accepts middle function place)
      (others : Rejects model placeholder accepts (place + 1) calls middle after) :
      Rejects model placeholder accepts place (call :: calls) before after

/-- Runs are rejected one after the other. -/
inductive PassedOver (model : Model) (placeholder : String)
    (accepts : Acceptance) : List (List Ref) → Tree → Tree → Prop
  /-- No runs. -/
  | nil {tree : Tree} : PassedOver model placeholder accepts [] tree tree
  /-- A run and then others. -/
  | cons {calls : List Ref} {runs : List (List Ref)} {before middle after : Tree}
      (rejects : Rejects model placeholder accepts 0 calls before middle)
      (others : PassedOver model placeholder accepts runs middle after) :
      PassedOver model placeholder accepts (calls :: runs) before after

/-- A run of calls of a tree, innermost first. -/
structure IsMadeOf (run : CallRun) (tree : Tree) (calls : List Ref) : Prop where
  /-- The last call is the outermost. -/
  outer : calls.getLast? = some run.outer
  /-- The first is a call of the member access that the run starts from. -/
  anchor : ∃ called, calls.head?.bind tree.calledMember? = some called ∧ called.access = run.anchor

/-- A search among runs passes over those that are rejected and comes to the first one that is not,
if there is one. -/
def FindsFirst (model : Model) (placeholder : String) (accepts : Acceptance) (tree : Tree)
    (runs : List (List Ref))
    (before : Tree) (search : RunSearch) (after : Tree) : Prop :=
  (search = ⟨runs.map List.length, none⟩ ∧ PassedOver model placeholder accepts runs before after) ∨
    ∃ passed calls others run middle, runs = passed ++ calls :: others ∧ search =
    ⟨passed.map List.length, some run⟩ ∧ PassedOver model placeholder accepts passed before middle ∧
      Normalises model placeholder accepts 0 calls middle run.functions after ∧
      run.IsMadeOf tree calls

section

open Term Refactory.Tree

variable {model : Model} {placeholder method : String} {accepts : Acceptance}
  {tree before middle after : Tree} {runs : List (List Ref)} {calls : List Ref}
  {functions : List Abstraction} {place : Nat}

/-- There are as many functions as calls. -/
theorem Normalises.length_eq
    (normalises : Normalises model placeholder accepts place calls before functions after) :
    functions.length = calls.length := by
  induction normalises with
  | nil => rfl
  | cons _ _ _ _ ih => rw [List.length_cons, List.length_cons, ih]

/-- What a search among runs comes to after one was rejected. -/
theorem FindsFirst.passOver {search : RunSearch}
    (rejects : Rejects model placeholder accepts 0 calls before middle)
    (finds : FindsFirst model placeholder accepts tree runs middle search after) :
    FindsFirst model placeholder accepts tree (calls :: runs) before
      { search with rejected := calls.length :: search.rejected } after := by
  rcases finds with ⟨rfl, passedOver⟩ | ⟨passed, found, others, run, reached, rfl, rfl, passedOver,
    normalises, isRun⟩
  · exact .inl ⟨rfl, .cons rejects passedOver⟩
  · exact .inr ⟨calls :: passed, found, others, run, reached, rfl, rfl, .cons rejects passedOver,
      normalises, isRun⟩

/-- The functions of calls are found when they are all accepted, and nothing but new nodes comes to
the tree. -/
theorem functionsOf?_settles {values : List (Option Outline)}
    (passes : List.Forall₂ tree.PassesAt calls values)
    (stored : tree.Stored) (all : tree.StandsAll (values.flatMap Option.toList)) :
    ∃ after, Frame [] [] tree after ∧ ((∃ functions,
        functionsOf? model placeholder accepts place calls tree = (some functions, after) ∧
        Normalises model placeholder accepts place calls tree functions after) ∨
      (functionsOf? model placeholder accepts place calls tree = (none, after) ∧
        Rejects model placeholder accepts place calls tree after)) := by
  induction calls generalizing tree place values with
  | nil => exact ⟨tree, .refl tree, .inl ⟨[], rfl, .nil⟩⟩
  | cons call calls ih =>
    obtain ⟨value, values, isPassed, others, rfl⟩ := List.forall₂_cons_left_iff.1 passes
    have passed := isPassed.singleArgument?
    rw [List.flatMap_cons] at all
    obtain ⟨found, middle, denoted, frame, -⟩ :=
      @Abstraction.of?_finds model placeholder _ _ stored (StandsAll.append_iff.1 all).1
    rw [functionsOf?_cons calls passed denoted]
    cases found with
    | none => exact ⟨middle, frame, .inr ⟨rfl, .nothing passed denoted⟩⟩
    | some function =>
      rw [Option.elim_some]
      cases isAccepted : accepts middle function place with
      | false => exact ⟨middle, frame, .inr ⟨rfl, .refused passed denoted isAccepted⟩⟩
      | true =>
        obtain ⟨after, frameOthers, ⟨functions, found, normalises⟩ | ⟨found, rejects⟩⟩ :=
          @ih middle (place + 1) values
            (others.imp fun _ _ passes => passes.of_frame frame) (frame.stored stored)
            ((StandsAll.append_iff.1 all).2.1.of_frame frame)
        · refine ⟨after, frame.grow frameOthers,
            .inl ⟨function :: functions, ?_, .cons passed denoted isAccepted normalises⟩⟩
          rw [if_pos rfl, found]
          rfl
        · refine ⟨after, frame.grow frameOthers,
            .inr ⟨?_, .later passed denoted isAccepted rejects⟩⟩
          rw [if_pos rfl, found]
          rfl

variable {whole container : Outline}

/-- A search among the calls of a node that were not visited yet goes through the runs that they
head. -/
theorem searchAmong_findsFirst (program : tree.IsProgram whole)
    (within : container ∈ whole.subterms)
    (other : container.kind.isExpression = false) {seen done candidates : List Ref}
    (frame : Frame [] [] tree before)
    (split : tree.callsOf method container.ref = done ++ candidates)
    (visited : tree.Visited method done seen) :
    ∃ search after, searchAmong model placeholder method accepts seen candidates before =
    (search, after) ∧ Frame [] [] before after ∧ FindsFirst model placeholder accepts tree
        ((candidates.filter (tree.isRunHead method)).map (tree.runOf method)) before search
        after := by
  induction candidates generalizing seen done before with
  | nil => exact ⟨⟨[], none⟩, before, rfl, .refl before, .inl ⟨rfl, .nil⟩⟩
  | cons call candidates ih =>
    have splitOn : tree.callsOf method container.ref = (done ++ [call]) ++ candidates := by
      rw [split, List.append_assoc]; rfl
    have isCandidate : call ∈ tree.callsOf method container.ref := by simp [split]
    have inside := (List.mem_filter.1 isCandidate).1
    rw [(program.stands.subterm within).descendants] at inside
    have member := refs_subset within inside
    rw [searchAmong, Edit.get_bind, program.isOnCallOf_of_growth frame member,
      program.runCalls_of_growth frame member,
      program.outermostCall_of_growth frame member, program.skips_eq within other split visited]
    cases isHead : tree.isRunHead method call with
    | false =>
      rw [List.filter_cons_of_neg (by rw [isHead]; exact Bool.false_ne_true)]
      exact ih frame splitOn (visited.skip isHead)
    | true =>
      rw [List.filter_cons_of_pos isHead, List.map_cons]
      have isFiltered := List.mem_filter.2 ⟨isCandidate, isHead⟩
      obtain ⟨rest, isRun, -⟩ := program.exists_runOf_head within isFiltered
      obtain ⟨first, isFirst⟩ : ∃ first, (tree.runCalls method call).head? = some first := by
        cases found : tree.runCalls method call with
        | nil => rw [runOf, found] at isRun; simp at isRun
        | cons first calls => exact ⟨first, rfl⟩
      obtain ⟨part, isPart, rfl⟩ := mem_refs.1 member
      obtain ⟨outer, anchor, values, -, -, -, -, passes, all, -⟩ :=
        exists_of_runCalls program isPart isFirst
      obtain ⟨middle, grow, settled⟩ :=
        @functionsOf?_settles model placeholder accepts before (tree.runOf method part.ref) 0 values
          (passes.imp fun _ _ passes => passes.of_frame frame) (frame.stored program.stored)
          ((StandsAll.cons_iff.1 all).2.1.of_frame frame)
      have isMadeOf {first' : Abstraction} {others : List Abstraction} :
          IsMadeOf ⟨part.ref, first.2.access, first', others⟩ tree
            (tree.runOf method part.ref) := by
        refine ⟨by rw [isRun, List.getLast?_reverse]; rfl, first.2, ?_, rfl⟩
        rw [runOf, List.head?_map, isFirst]
        exact calledMember?_of_mem (List.mem_reverse.1 (List.mem_of_mem_head? isFirst))
      simp only [Bool.not_true, Bool.false_eq_true, if_false, Edit.bind_apply,
        outermostCall_of_isRunHead isHead]
      rcases settled with ⟨functions, found, normalises⟩ | ⟨found, rejects⟩
      · cases functions with
        | nil =>
          have none := normalises.length_eq
          rw [isRun, List.length_reverse] at none
          cases none
        | cons function functions =>
          refine ⟨_, middle, ?_, grow, .inr ⟨[], _, _, ⟨part.ref, first.2.access, function,
            functions⟩, before, rfl, rfl, .nil, normalises, isMadeOf⟩⟩
          rw [runOf] at found
          rw [found, isFirst]
          rfl
      · obtain ⟨search, after, searched, frameOn, finds⟩ :=
          ih (frame.grow grow) splitOn (visited.visit isHead)
        refine ⟨_, after, ?_, grow.grow frameOn, finds.passOver rejects⟩
        rw [runOf] at found searched ⊢
        rw [found, isFirst]
        simp only [Edit.bind_apply, searched, List.length_map]
        rfl

/-- A search in a node that is no expression, as in a statement, goes through the maximal runs of
calls of the method in the node in pre-order of their outermost calls, and comes to the first whose
arguments denote functions that are accepted at their places, or to none if there is no such run.
Nothing in the tree is changed by it, but nodes are added. -/
theorem search_findsFirst (model : Model) (placeholder method : String) (accepts : Acceptance)
    (wellFormed : tree.WellFormed) {container : Ref} (attached : container ∈ tree.attached)
    (noExpression : (tree.kind container).isExpression = false) :
    ∃ runs search after, CallRun.search model placeholder method container accepts tree =
    (search, after) ∧ after.WellFormed ∧ after.outline after.root = tree.outline tree.root ∧
      (∀ calls, calls ∈ runs ↔
        tree.IsMaximalRun method calls ∧ calls ⊆ tree.descendants container) ∧
      (runs.filterMap List.getLast?).Sublist (tree.descendants container) ∧
      FindsFirst model placeholder accepts tree runs tree search after := by
  obtain ⟨whole, program⟩ := wellFormed_iff.1 wellFormed
  rw [program.attached] at attached
  obtain ⟨part, within, rfl⟩ := mem_refs.1 attached
  have other : part.kind.isExpression = false :=
    (Kind.isExpression_of_skeleton (program.stands.shows within).depicts.skeleton).symm.trans
    noExpression
  have visited : tree.Visited method [] [] := fun call => by simp
  obtain ⟨search, after, searched, frame, finds⟩ :=
    @searchAmong_findsFirst model placeholder method accepts tree tree whole part
    program within other _ _ _ (.refl tree) rfl visited
  have programAfter := program.of_frame frame
  exact ⟨tree.runsIn method part.ref, search, after, searched, programAfter.wellFormed,
    programAfter.outline_root.trans program.outline_root.symm, fun _ =>
    program.mem_runsIn_iff within, program.runsIn_sublist within, finds⟩

/-- Where functions that are written as lambdas are refused, the run in the lambda of the first one
is found. -/
theorem search_findsFirst_nested : ∃ tree runs search after,
    Tree.parse 0 "var q = xs.Where(a => a.Ys.Where(G).Where(H).Any()).Where(F);" = .ok tree ∧
      (∀ calls, calls ∈ runs ↔ tree.IsMaximalRun "Where" calls ∧ calls ⊆ tree.attached) ∧
      FindsFirst (Model.build tree) "it"
      (fun _ function _ => function.referent.isSynthesized) tree runs tree search after ∧
      search.rejected = [2] ∧ search.found.map CallRun.outer = some (some 13) := by
  have computed :
      (Tree.parse 0 "var q = xs.Where(a => a.Ys.Where(G).Where(H).Any()).Where(F);").toOption.any
      (fun tree =>
      !(tree.kind tree.root).isExpression &&
        let found := (CallRun.search (Model.build tree) "it" "Where" tree.root
          (fun _ function _ => function.referent.isSynthesized) tree).1
        found.rejected == [2] && found.found.map CallRun.outer == some (some 13)) = true := by
    decide +kernel
  obtain ⟨tree, parsed, facts⟩ := exists_of_any computed
  simp only [Bool.and_eq_true, Bool.not_eq_true', beq_iff_eq] at facts
  obtain ⟨noExpression, rejected, outer⟩ := facts
  obtain ⟨-, whole, -, program, -⟩ := exists_isProgram_of_parse parsed
  have attached : tree.root ∈ tree.attached := by
    rw [program.attached, ← program.root]
    exact ref_mem_refs whole
  obtain ⟨runs, search, after, searched, -, -, each, -, finds⟩ :=
    search_findsFirst (Model.build tree) "it" "Where"
      (fun _ function _ => function.referent.isSynthesized) program.wellFormed attached noExpression
  rw [searched] at rejected outer
  exact ⟨tree, runs, search, after, parsed, each, finds, rejected, outer⟩

end

end CallRun

end Refactory
