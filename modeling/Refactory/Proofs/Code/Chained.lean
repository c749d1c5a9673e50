import Refactory.Proofs.Code.CallRun

/-!
# Runs of calls as terms

A run of calls of a method is a term: the first call is made on a member access, its anchor, and
each other call on the result of the one before (`Term.IsRun`). Where the calls of a run are all the
calls of the method in a statement of a program, the search for a run finds this one, with the
functions that its calls pass (`CallRun.search_eq`).
-/
namespace Refactory

namespace Kind

variable {one many : Type}

/-- Accesses to a member of a name. -/
def isMemberOf (name : String) : Kind one many → Bool
  | .member _ other _ => other == name
  | _ => false

/-- Plain arguments. -/
def isPlainArgument : Kind one many → Bool
  | .argument .plain _ => true
  | _ => false

theorem isMemberOf_skeleton (name : String)
    (kind : Kind one many) : kind.skeleton.isMemberOf name = kind.isMemberOf name := by
  cases kind <;> rfl

theorem isPlainArgument_skeleton
    (kind : Kind one many) : kind.skeleton.isPlainArgument = kind.isPlainArgument := by
  cases kind
  case argument modifier _ => cases modifier <;> rfl
  all_goals rfl

theorem exists_of_isMemberOf {name : String} {kind : Kind one many}
    (isMember : kind.isMemberOf name) :
    ∃ receiver conditional, kind = .member receiver name conditional := by
  cases kind
  case member receiver other conditional =>
    obtain rfl := beq_iff_eq.1 isMember
    exact ⟨receiver, conditional, rfl⟩
  all_goals cases isMember

theorem exists_of_isPlainArgument {kind : Kind one many} (isPlain : kind.isPlainArgument) :
    ∃ value, kind = .argument .plain value := by
  cases kind
  case argument modifier value =>
    cases modifier <;> first | exact ⟨value, rfl⟩ | cases isPlain
  all_goals cases isPlain

end Kind

namespace Term

/-- The calls of a method, outermost first, each on the result of the next and the last one on an
anchor, with the functions that they pass. -/
inductive IsRun {α : Type} (method : String)
    (anchor : Term α) : List (Term α) → List (Term α) → Prop
  /-- A single call. -/
  | first {function call : Term α} (isCall : IsCallOn anchor function call) : IsRun method anchor
    [call] [function]
  /-- A call on the result of a run. -/
  | next {access : α} {function inner call : Term α} {calls functions : List (Term α)}
      (run : IsRun method anchor (inner :: calls) functions)
      (isCall : IsCallOn (.node access (.member (some inner) method false)) function call) :
      IsRun method anchor (call :: inner :: calls) (function :: functions)

/-- A run on the result of a call goes on from the anchor of the call. -/
theorem IsRun.onto {α : Type} {method : String} {anchor function call : Term α} {access : α}
    {calls functions : List (Term α)} (isCall : IsCallOn anchor function call)
    (run : IsRun method (.node access (.member (some call) method false)) calls functions) :
    IsRun method anchor (calls ++ [call]) (functions ++ [function]) := by
  induction run with
  | first isNext => exact .next (.first isCall) isNext
  | next _ isNext ih => exact .next ih isNext

section

variable {α : Type} {method : String} {anchor : Term α} {calls functions : List (Term α)}

theorem IsRun.length_eq (run : IsRun method anchor calls functions) :
    calls.length = functions.length := by
  induction run with
  | first => rfl
  | next _ _ ih => simpa using ih

/-- The calls of a run pass its functions. -/
theorem IsRun.passes (run : IsRun method anchor calls functions) :
    List.Forall₂
      (fun call function => ∃ callee, IsCallOn callee function call) calls functions := by
  induction run with
  | first isCall => exact .cons ⟨_, isCall⟩ .nil
  | next _ isCall ih => exact .cons ⟨_, isCall⟩ ih

/-- What a call is made on and the function that it passes are parts of it. -/
theorem IsCallOn.inside {callee function call : Term α} (isCall : IsCallOn callee function call) :
    callee ∈ call.subterms ∧ function ∈ call.subterms := by
  obtain ⟨place, argument, rfl⟩ := isCall
  constructor <;> simp [subterms_node, parts, self_mem_subterms]

/-- The calls of a run lie within the outermost. -/
theorem IsRun.inside (run : IsRun method anchor calls functions) {call other : Term α}
    (isHead : calls.head? = some call)
    (member : other ∈ calls) : other ∈ call.subterms := by
  induction run generalizing call with
  | first isCall =>
    cases isHead
    cases List.mem_singleton.1 member
    exact self_mem_subterms _
  | @next access function inner call calls functions run isCall ih =>
    cases isHead
    rcases List.mem_cons.1 member with rfl | member
    · exact self_mem_subterms _
    · refine subterms_trans isCall.inside.1 (mem_subterms_of_child ?_ (ih rfl member))
      simp [children, kind, parts]

/-- So do the anchor and the functions. -/
theorem IsRun.parts_inside (run : IsRun method anchor calls functions) {call : Term α}
    (isHead : calls.head? = some call) :
    anchor ∈ call.subterms ∧ ∀ function ∈ functions, function ∈ call.subterms := by
  induction run generalizing call with
  | first isCall =>
    cases isHead
    exact ⟨isCall.inside.1, fun _ member => List.mem_singleton.1 member ▸ isCall.inside.2⟩
  | @next access function inner call calls functions run isCall ih =>
    cases isHead
    have held : inner ∈ call.subterms :=
      subterms_child isCall.inside.1 (by simp [children, kind, parts])
    obtain ⟨insideAnchor, insideFunctions⟩ := ih rfl
    refine ⟨subterms_trans held insideAnchor, fun other member => ?_⟩
    rcases List.mem_cons.1 member with rfl | member
    · exact isCall.inside.2
    · exact subterms_trans held (insideFunctions other member)

/-- Whether a term is a call of a method with one plain argument. -/
def callsMethod (method : String) (term : Term α) : Bool :=
  match term.kind with
  | .invoke (some callee) [argument] =>
    callee.kind.isMemberOf method && argument.kind.isPlainArgument
  | _ => false

theorem callsMethod_of_isCallOn {receiver : Option (Term α)} {name : String} {conditional : Bool}
    {callee function call : Term α} (isAccess : callee.kind = .member receiver name conditional)
    (isCall : IsCallOn callee function call) : call.callsMethod method = (name == method) := by
  obtain ⟨place, argument, rfl⟩ := isCall
  change (callee.kind.isMemberOf method && true) = _
  rw [isAccess, Bool.and_true]
  rfl

/-- Nothing but a call calls a method. -/
theorem callsMethod_of_kind {term : Term α}
    (noCall : ∀ callee arguments, term.kind ≠ .invoke callee arguments) :
    term.callsMethod method = false := by
  rw [callsMethod]
  split
  · rename_i isCall
    exact absurd isCall (noCall _ _)
  · rfl

/-- The calls of a method in a call on an anchor are the call and those in the receiver and in the
function. -/
theorem calls_of_isCallOn {receiver : Option (Term α)} {conditional : Bool}
    {callee function call : Term α} (isAccess : callee.kind = .member receiver method conditional)
    (isCall : IsCallOn callee function call)
    (noFunction : ∀ part ∈ function.subterms, part.callsMethod method = false) :
    call.subterms.filter (callsMethod method) =
      call :: (receiver.toList.flatMap subterms).filter (callsMethod method) := by
  have isMethod : call.callsMethod method = true :=
    (callsMethod_of_isCallOn isAccess isCall).trans (beq_self_eq_true _)
  have none : function.subterms.filter (callsMethod method) = [] :=
    List.filter_eq_nil_iff.2 fun part inside => by
    rw [noFunction part inside]; exact Bool.false_ne_true
  obtain ⟨place, argument, rfl⟩ := isCall
  rcases callee with ⟨note, form⟩
  obtain rfl : form = _ := isAccess
  have noAccess : (node note (.member receiver method conditional)).callsMethod method = false :=
    callsMethod_of_kind nofun
  have noArgument : (node argument (.argument .plain (some function))).callsMethod method = false :=
    callsMethod_of_kind nofun
  rw [subterms_node, List.filter_cons_of_pos isMethod]
  simp [parts, subterms_node, noAccess, noArgument, none]

/-- The calls of the method of a run are those of the run, when there are none in what it is called
on and in its functions. -/
theorem IsRun.calls_eq {receiver : Option (Term α)} {conditional : Bool}
    (isAnchor : anchor.kind = .member receiver method conditional)
    (run : IsRun method anchor calls functions)
    (noReceiver : ∀ part ∈ receiver.toList.flatMap subterms, part.callsMethod method = false)
    (noFunction : ∀ function ∈ functions, ∀ part ∈ function.subterms, part.callsMethod method
      = false) :
    ∀ call ∈ calls.head?, call.subterms.filter (callsMethod method) = calls := by
  induction run with
  | first isCall =>
    rintro _ ⟨rfl⟩
    rw [calls_of_isCallOn isAnchor isCall (noFunction _ (.head _)),
      List.filter_eq_nil_iff.2 fun part inside => by
      rw [noReceiver part inside]
      exact Bool.false_ne_true]
  | next _ isCall ih =>
    rintro _ ⟨rfl⟩
    rw [calls_of_isCallOn rfl isCall (noFunction _ (.head _))]
    have inner := ih (fun other member => noFunction other (.tail _ member)) _ rfl
    simpa using inner

end

section

variable {method : String} {whole old new : Outline}

/-- A part that changes below its root, or gets another one of the same skeleton, keeps its
skeleton. -/
theorem skeleton_swap {part : Outline} (same : new.kind.skeleton = old.kind.skeleton)
    (unique : part.ref = old.ref → part = old) :
    (swap old.ref new part).kind.skeleton = part.kind.skeleton := by
  by_cases here : part.ref = old.ref
  · rw [unique here, swap_self, same]
  · rw [kind_swap_of_ne here, mapChildren, Kind.skeleton_withSlots]

/-- Whether a part calls a method does not change with what is below it. -/
theorem callsMethod_swap {place : Place} {form : Form Place}
    (same : new.kind.skeleton = old.kind.skeleton) (above : place.ref ≠ old.ref)
    (unique : ∀ child ∈ parts form, child.ref = old.ref → child = old) :
    (swap old.ref new (.node place form)).callsMethod method =
    (node place form).callsMethod method := by
  rw [swap_node, if_neg above]
  cases form
  case invoke callee arguments =>
    rcases callee with _ | callee
    · rfl
    · rcases arguments with _ | ⟨argument, _ | ⟨other, others⟩⟩
      · rfl
      · have skeletonCallee := skeleton_swap same (unique callee (by simp [parts]))
        have skeletonArgument := skeleton_swap same (unique argument (by simp [parts]))
        change ((swap old.ref new callee).kind.isMemberOf method &&
          (swap old.ref new argument).kind.isPlainArgument) =
          (callee.kind.isMemberOf method && argument.kind.isPlainArgument)
        rw [← Kind.isMemberOf_skeleton, ← Kind.isPlainArgument_skeleton, skeletonCallee,
          skeletonArgument, Kind.isMemberOf_skeleton, Kind.isPlainArgument_skeleton]
      · rfl
  all_goals rfl

/-- Where a part is the only call of a method, the calls of what is put in its place are the only
ones afterwards. -/
theorem calls_swap (once : whole.refs.Nodup) (same : new.kind.skeleton = old.kind.skeleton)
    (only : whole.subterms.filter (callsMethod method) = [old]) :
    (swap old.ref new whole).subterms.filter (callsMethod method) =
    new.subterms.filter (callsMethod method) := by
  have found {part : Outline} : part ∈ whole.subterms ∧ part.callsMethod method = true ↔
      part = old := by
    rw [← List.mem_filter, only, List.mem_singleton]
  obtain ⟨within, isCall⟩ := found.2 rfl
  have here : old.subterms.filter (callsMethod method) = [old] := by
    rw [subterms_eq, List.filter_cons_of_pos isCall, List.filter_eq_nil_iff.2]
    intro part below calls
    obtain ⟨child, held, inside⟩ := List.mem_flatMap.1 below
    have inWhole := subterms_trans within (mem_subterms_of_child held inside)
    exact ref_ne_of_child (once.sublist (refs_sublist within)) held inside
      (congrArg ref (found.1 ⟨inWhole, calls⟩)).symm
  -- Every term in which only the old part calls the method gets the calls of the new one for each
  -- of its own.
  have each := @around_induction whole old (fun other =>
      (∀ part ∈ other.subterms, part.callsMethod method = true → part = old) →
      (∀ part ∈ other.subterms, part.ref = old.ref → part = old) →
      (swap old.ref new other).subterms.filter (callsMethod method) =
        (other.subterms.filter (callsMethod method)).flatMap fun _ =>
        new.subterms.filter (callsMethod method))
    once within (fun _ _ => by rw [swap_self, here, List.flatMap_singleton]) ?_ ?_
  · rw [each (fun part inside calls => found.1 ⟨inside, calls⟩)
      (fun part inside same => subterm_unique once inside within same), only,
      List.flatMap_singleton]
  · intro other apart calls _
    have absent : old.ref ∉ other.refs := apart (ref_mem_refs old)
    rw [swap_of_not_mem absent, List.filter_eq_nil_iff.2 fun part inside isCall =>
      ?_, List.flatMap_nil]
    exact absent (calls part inside isCall ▸ mem_refs.2 ⟨part, inside, rfl⟩)
  · intro place form outside ih calls unique
    have above : place.ref ≠ old.ref := fun same => outside (same ▸ ref_mem_refs old)
    have below {child part : Outline} (held : child ∈ parts form) (inside : part ∈ child.subterms) :
        part ∈ (node place form).subterms := mem_subterms_of_child held inside
    have unchanged := @callsMethod_swap method old new place form same above fun child held =>
      unique child (below held (self_mem_subterms child))
    have noCall : ¬(node place form).callsMethod method = true := fun isCall =>
      above (congrArg ref (calls _ (self_mem_subterms _) isCall))
    rw [swap_node, if_neg above] at unchanged ⊢
    have noCall' := fun isCall => noCall (unchanged.symm.trans isCall)
    rw [subterms_node, subterms_node, List.filter_cons_of_neg noCall,
      List.filter_cons_of_neg noCall', List.filter_flatMap,
      List.filter_flatMap, List.flatMap_assoc, parts_mapChildren, List.flatMap_map]
    exact List.flatMap_congr fun child held =>
      ih child held (fun part inside => calls part (below held inside))
      fun part inside => unique part (below held inside)

end

end Term

namespace Tree

open Term

variable {tree : Tree} {method : String} {term whole container call anchor : Outline}
  {receiver : Option Outline} {conditional : Bool} {calls functions : List Outline}

/-- Whether a node calls a method is a matter of the term that stands there. -/
theorem isCallOf_eq
    (shown : term.All tree.Shows) : tree.isCallOf method term.ref = term.callsMethod method := by
  rw [Bool.eq_iff_iff, isCallOf, Bool.and_eq_true]
  constructor
  · rintro ⟨isCalled, isPassed⟩
    obtain ⟨called, found, isName⟩ := (Option.any_eq_true _ _).1 isCalled
    obtain ⟨value, passed⟩ := Option.isSome_iff_exists.1 isPassed
    obtain ⟨access, receiver, arguments, form, formAccess, -⟩ := calledMember?_eq_some shown found
    obtain ⟨value, ⟨callee, argument, form', formArgument⟩, -⟩ :=
      singleArgument?_eq_some shown passed
    rw [form] at form'
    cases form'
    rw [callsMethod, form]
    dsimp only
    rw [formAccess, formArgument]
    exact Bool.and_eq_true_iff.2 ⟨isName, rfl⟩
  · intro isCall
    rw [callsMethod] at isCall
    split at isCall
    · rename_i access argument form
      obtain ⟨isAccess, isArgument⟩ := Bool.and_eq_true_iff.1 isCall
      obtain ⟨receiver, conditional, formAccess⟩ := Kind.exists_of_isMemberOf isAccess
      obtain ⟨value, formArgument⟩ := Kind.exists_of_isPlainArgument isArgument
      rw [calledMember?_of_form shown form formAccess,
        singleArgument?_of_passes shown ⟨_, _, form, formArgument⟩]
      exact ⟨beq_self_eq_true method, rfl⟩
    · cases isCall

/-- The calls of a method in a term that stands. -/
theorem Stands.callsOf (stands : tree.Stands container) :
    tree.callsOf method container.ref =
    (container.subterms.filter (callsMethod method)).map Term.ref := by
  rw [Tree.callsOf, stands.descendants, refs, List.filter_map]
  refine congrArg (List.map Term.ref) (List.filter_congr fun part inside => ?_)
  exact isCallOf_eq (stands.shown.subterm inside)

/-- The calls of a run are met one after the other on the way down from the outermost. -/
theorem callsDownWithin_of_isRun (isAnchor : anchor.kind = .member receiver method conditional)
    (noReceiver : ∀ term ∈ receiver, term.callsMethod method = false)
    (run : IsRun method anchor calls functions) {bound : Nat} (enough : calls.length ≤ bound)
    (isHead : calls.head? = some call) (shown : call.All tree.Shows) :
    ∃ found, tree.callsDownWithin method bound call.ref = found ∧
    found.map (·.1) = calls.map Term.ref ∧ found.getLast?.map (·.2.access) = some anchor.ref := by
  have step {access function call : Outline} {receiver : Option Outline} {conditional : Bool}
      {bound : Nat}
      (shown : call.All tree.Shows) (isAccess : access.kind = .member receiver method conditional)
      (isCall : IsCallOn access function call) : tree.callsDownWithin method (bound + 1) call.ref =
        (call.ref, ⟨access.ref, refOf receiver, method, conditional⟩) ::
          tree.callsDownWithin method bound (refOf receiver) := by
    have isMethod : tree.isCallOf method call.ref = true := (isCallOf_eq shown).trans
      ((callsMethod_of_isCallOn isAccess isCall).trans (beq_self_eq_true _))
    obtain ⟨place, argument, rfl⟩ := isCall
    rw [callsDownWithin, if_pos isMethod, calledMember?_of_form shown rfl isAccess]
  induction run generalizing call bound with
  | @first function call isCall =>
    cases isHead
    obtain ⟨bound, rfl⟩ := Nat.exists_eq_add_of_le' enough
    have none : tree.callsDownWithin method bound (refOf receiver) = [] := by
      cases bound with
      | zero => rfl
      | succ bound =>
        rw [callsDownWithin, if_neg]
        cases receiver with
        | none => exact Bool.false_ne_true
        | some term =>
          have isChild : term ∈ anchor.children := by simp [Term.children, isAnchor, parts]
          have inside : anchor ∈ call.subterms := by
            obtain ⟨place, argument, rfl⟩ := isCall
            simp [subterms_node, parts, self_mem_subterms]
          rw [refOf_some, isCallOf_eq ((shown.subterm inside).child isChild), noReceiver term rfl]
          exact Bool.false_ne_true
    refine ⟨_, step shown isAnchor isCall, ?_, ?_⟩ <;> simp [none]
  | @next access function inner other calls functions run isCall ih =>
    cases isHead
    obtain ⟨bound, rfl⟩ :=
      Nat.exists_eq_add_of_le' (Nat.le_trans (Nat.succ_le_succ (Nat.zero_le _)) enough)
    have inside : inner ∈ other.subterms := by
      obtain ⟨place, argument, rfl⟩ := isCall
      simp [subterms_node, parts, self_mem_subterms]
    obtain ⟨found, isFound, refs, last⟩ :=
      @ih inner bound (Nat.le_of_succ_le_succ enough) rfl (shown.subterm inside)
    refine ⟨_, step shown rfl isCall, ?_, ?_⟩
    · rw [List.map_cons, List.map_cons, refOf_some, isFound, refs]
    · rw [refOf_some, isFound, List.getLast?_cons]
      cases same : found.getLast? with
      | none => simp [same] at last
      | some call => simpa [same] using last

/-- Nothing is called on the result of the outermost call of a run that has all the calls of a
statement. -/
theorem IsProgram.outermostCall_eq (program : tree.IsProgram whole)
    (within : container ∈ whole.subterms)
    (isStatement : container.kind.isStatement) (inside : call ∈ container.subterms)
    (isCall : call.kind.isStatement = false)
    (all : ∀ part ∈ container.subterms, part.callsMethod method = true → part ∈ call.subterms) :
    tree.outermostCall method call.ref = call.ref := by
  have noneAround : tree.callAround? method call.ref = none := by
    by_contra some
    obtain ⟨around, found⟩ := Option.ne_none_iff_exists'.1 some
    rcases exists_holder inside with rfl | ⟨access, inAccess, heldCall⟩
    · rw [isStatement] at isCall
      cases isCall
    have shows := program.stands.shows (subterms_trans within inAccess)
    rw [callAround?, program.stands.parent (subterms_trans within inAccess) heldCall] at found
    split at found
    · cases found
    split at found
    · rename_i receiver name conditional isAccess
      have depicts := shows.depicts
      rw [isAccess] at depicts
      obtain ⟨receiver, form, -⟩ := depicts.member
      -- The access is no statement, so what it is called from is still in the statement.
      rcases exists_holder inAccess with rfl | ⟨outer, inOuter, heldAccess⟩
      · rw [form] at isStatement
        cases isStatement
      have standsOuter := program.stands.subterm (subterms_trans within inOuter)
      rw [program.stands.parent (subterms_trans within inOuter) heldAccess] at found
      dsimp only at found
      rw [isCallOf_eq standsOuter.shown] at found
      split at found
      · rename_i calls
        have below := all outer inOuter (Bool.and_eq_true_iff.1 calls).2
        have aroundCall := mem_subterms_of_child heldAccess (child_mem_subterms heldCall)
        rw [eq_of_mem_subterms below aroundCall] at heldAccess
        exact absurd (length_subterms_lt heldCall) (Nat.not_lt.2 (length_subterms_lt heldAccess).le)
      · cases found
    · cases found
  rw [outermostCall, depthBound, outermostCallWithin, noneAround]

end Tree

namespace CallRun

open Term Refactory.Tree

/-- Where a run has all the calls of a method in a statement of a program and the calls pass
functions that are accepted, the search finds the run. -/
theorem search_eq {tree middle : Tree} {model : Model} {placeholder method : String}
    {accepts : Acceptance}
    {whole container call inner anchor : Outline} {receiver : Option Outline} {conditional : Bool}
    {calls functions : List Outline} {first : Abstraction} {others : List Abstraction}
    (program : tree.IsProgram whole)
    (within : container ∈ whole.subterms) (isStatement : container.kind.isStatement)
    (isAnchor : anchor.kind = .member receiver method conditional)
    (noReceiver : ∀ term ∈ receiver, term.callsMethod method = false)
    (run : IsRun method anchor (call :: inner :: calls) functions)
    (all : container.subterms.filter (callsMethod method) = call :: inner :: calls)
    (denote : functionsOf? model placeholder accepts 0
      ((call :: inner :: calls).reverse.map Term.ref) tree = (some (first :: others), middle)) :
    search model placeholder method container.ref accepts tree =
      (⟨[], some ⟨call.ref, anchor.ref, first, others⟩⟩, middle) := by
  have standsContainer := program.stands.subterm within
  have found {part : Outline}
      (member : part ∈ call :: inner :: calls) : part ∈ container.subterms :=
    List.mem_of_mem_filter (all ▸ member)
  have standsCall := standsContainer.subterm (found (.head _))
  obtain ⟨access, place, argument, function,
    isCall⟩ : ∃ (access place argument : Place) (function : Outline),
      call = .node place (.invoke (some (.node access (.member (some inner) method false)))
        [.node argument (.argument .plain (some function))]) := by
    cases run with
    | next _ isCall =>
      obtain ⟨place, argument, isCall⟩ := isCall
      exact ⟨_, place, argument, _, isCall⟩
  have outermost : tree.outermostCall method call.ref = call.ref := by
    refine program.outermostCall_eq within isStatement (found (.head _)) (by rw [isCall]; rfl)
      fun part inside calls => ?_
    exact run.inside rfl (all ▸ List.mem_filter.2 ⟨inside, calls⟩)
  have isOnCall : tree.isOnCallOf method call.ref = true := by
    have innerStands := standsContainer.subterm (found (.tail _ (.head _)))
    have isInner : inner.callsMethod method = true := (List.mem_filter.1
      (all ▸ .tail _ (.head _) : inner ∈ container.subterms.filter (callsMethod method))).2
    have isCalled :=
      @calledMember?_of_form tree call _ _ _ _ _ standsCall.shown (by rw [isCall]; rfl) rfl
    rw [isOnCallOf, isCalled]
    exact (isCallOf_eq innerStands.shown).trans isInner
  have enough : (call :: inner :: calls).length ≤ tree.depthBound := by
    have sublist :=
      (List.filter_sublist (p := callsMethod method) (l := container.subterms)).length_le
    rw [all] at sublist
    exact Nat.le_succ_of_le (Nat.le_trans sublist standsContainer.length_le)
  obtain ⟨down, isDown, refs, last⟩ :=
    callsDownWithin_of_isRun isAnchor noReceiver run enough rfl standsCall.shown
  have isRun : tree.runCalls method call.ref = down.reverse := by rw [runCalls, outermost, isDown]
  have isHead : ∃ place called, down.reverse.head? = some (place, called) ∧
      called.access = anchor.ref := by
    rw [List.head?_reverse]
    obtain ⟨⟨place, called⟩, isLast, isAccess⟩ := Option.map_eq_some_iff.1 last
    exact ⟨place, called, isLast, isAccess⟩
  obtain ⟨place, called, isHead, isAccess⟩ := isHead
  have isRefs : down.reverse.map (·.1) = (call :: inner :: calls).reverse.map Term.ref := by
    rw [List.map_reverse, refs, List.map_reverse]
  rw [search, Edit.get_bind, standsContainer.callsOf, all, List.map_cons, searchAmong,
    Edit.get_bind, isOnCall]
  simp only [List.contains_nil, Bool.not_true, Bool.or_self, Bool.false_eq_true, if_false,
    Edit.bind_apply, isRun, isRefs, denote]
  rw [isHead]
  simp only [outermost, isAccess]
  rfl

end CallRun

end Refactory
