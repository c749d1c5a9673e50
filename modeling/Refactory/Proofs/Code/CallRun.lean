import Refactory.Proofs.Code.Composition
import Refactory.Proofs.Tree.Sheltered

/-!
# Terms of runs of calls

A search for a run of calls only adds nodes to a tree. The functions of the run that it finds have
bodies which stand apart from each other and from the member access that the run starts from
(`CallRun.search_stands`). Each is what the expression that was passed denotes
(`Abstraction.Denotes`).
-/
namespace Refactory

open Term Refactory.Tree

variable {tree : Tree}

namespace Abstraction

/-- What the function of an expression is: that of a lambda has the body of the lambda, and that of
a path to a function has a call of a copy of the path with a name that is made up. -/
inductive Denotes (model : Model) (placeholder : String)
    (value : Outline) : Abstraction → Option Outline → Prop
  /-- The function of a lambda. -/
  | written {lambda : SimpleLambda} {param : Outline} {type body : Option Outline}
      {symbol : SymbolId}
      (isLambda : IsSimpleLambda value lambda)
      (form : value.kind = .lambda [param] body lambda.parenthesized)
      (isParam : param.kind = .param type lambda.name)
      (declares : model.declaredSymbol param.ref = some symbol) :
      Denotes model placeholder value ⟨lambda.name, .symbol symbol, refOf body⟩ body
  /-- The function that a path names. -/
  | named {call path reference root : Outline} {members : List String}
      (isPath : IsPath root members value)
      (copies : path.shape = value.shape) (isName : reference.kind = .ident placeholder)
      (isCall : IsCallOn path reference call) :
      Denotes model placeholder value ⟨placeholder, .synthesized reference.ref, call.ref⟩
        (some call)

/-- Whether an expression denotes a function is read off the tree. -/
theorem of?_isSome (model : Model) (placeholder : String) (tree : Tree) (value : Ref) :
    (of? model placeholder value tree).1.isSome = match tree.simpleLambda? value with
      | some lambda => (model.declaredSymbol lambda.param).isSome
      | none => tree.isStablePath value := by
  rw [of?, Edit.get_bind]
  cases tree.simpleLambda? value with
  | some lambda => exact Option.isSome_map
  | none => cases tree.isStablePath value <;> rfl

/-- The function that a value denotes has a body within the value or a new one, and nothing is
touched. -/
theorem of?_finds {model : Model} {placeholder : String} {tree : Tree} {value : Option Outline}
    (stored : tree.Stored) (all : tree.StandsAll value.toList) :
    ∃ found after, of? model placeholder (refOf value) tree = (found, after) ∧
    Frame [] [] tree after ∧ ∀ function, found = some function → ∃ body, HasBody function body ∧
        Finds value.toList tree after body.toList ∧
        ∃ term ∈ value, Denotes model placeholder term function body := by
  cases isLambda : tree.simpleLambda? (refOf value) with
  | some lambda =>
    obtain ⟨term, rfl⟩ : ∃ term, value = some term := by
      cases value with
      | none => cases isLambda
      | some term => exact ⟨term, rfl⟩
    have stands := all.each term (by simp)
    obtain ⟨param, body, type, form, isParam, -, same, isBody⟩ :=
      (simpleLambda?_iff stands.shown).1 isLambda
    refine ⟨(model.declaredSymbol lambda.param).map fun symbol =>
      ⟨lambda.name, .symbol symbol, lambda.body⟩, tree, ?_, .refl tree, fun function found => ?_⟩
    · rw [of?, Edit.get_bind, isLambda]
      rfl
    · obtain ⟨symbol, declares, rfl⟩ := Option.map_eq_some_iff.1 found
      refine ⟨body, ⟨isBody, by simp⟩, ⟨.refl tree, ?_, fun ref member _ => ?_⟩, term, rfl, ?_⟩
      · cases body with
        | none => exact .nil
        | some body =>
          have isChild : body ∈ term.children := by simp [Term.children, form, parts]
          exact StandsAll.singleton_iff.2 (stands.subterm (child_mem_subterms isChild))
      · obtain ⟨inner, isInner, inside⟩ := List.mem_flatMap.1 member
        have isChild : inner ∈ term.children := by
          simp only [Term.children, form, parts, Kind.slots, List.flatMap_cons, Slot.terms,
            List.mem_append]
          exact .inr (.inl isInner)
        simpa using refs_subset (child_mem_subterms isChild) inside
      · rw [isBody]
        exact .written ((simpleLambda?_iff stands.shown).1 isLambda) form isParam (same ▸ declares)
  | none =>
    cases isPath : tree.isStablePath (refOf value) with
    | false =>
      refine ⟨none, tree, ?_, .refl tree, fun _ found => absurd found.symm (Option.some_ne_none _)⟩
      rw [of?, Edit.get_bind, isLambda, isPath]
      rfl
    | true =>
      obtain ⟨term, rfl⟩ : ∃ term, value = some term := by
        cases value with
        | none => cases isPath
        | some term => exact ⟨term, rfl⟩
      have stands := all.each term (by simp)
      obtain ⟨root, members, path⟩ := exists_isPath stands.shown isPath
      obtain ⟨_, _, copied, duplicated, copies, copy, rfl, rfl, records⟩ :=
        Build.duplicate_makes stored stands.shown stands.once
      have storedCopy := copies.frame.stored stored
      obtain ⟨_, _, named, made, makes, place, rfl, rfl⟩ := Build.ident_makes storedCopy placeholder
      have both := copies.beside makes
      have storedNamed := both.frame.stored stored
      obtain ⟨_, _, after, invoked, invokes, arguments, areArguments, body, rfl, rfl⟩ :=
        @Build.invoke_makes named (some copy)
        [.node place (.ident placeholder)] storedNamed both.stands
      obtain ⟨argument, _, ⟨argument, rfl⟩, none, rfl⟩ := List.forall₂_cons_left_iff.1 areArguments
      cases none
      have builds := both.trans invokes
      refine ⟨some ⟨placeholder, .synthesized place.ref, body.ref⟩, after, ?_, builds.frame, ?_⟩
      · rw [of?, Edit.get_bind, isLambda, isPath]
        have invoked : Build.invoke copy.ref [place.ref] named = (body.ref, after) := invoked
        simp only [if_true, Edit.bind_apply, refOf_some, duplicated, made, invoked]
        rfl
      · rintro _ ⟨rfl⟩
        obtain ⟨number, -, same⟩ := @StandsAll.hasRef named _ both.stands place.ref (by simp)
        refine ⟨some _, ⟨rfl, ?_⟩, ⟨builds.frame, builds.stands, fun ref member stored => ?_⟩, term,
          rfl, .named path (shape_of_records records)
          (rfl : (node place (.ident placeholder) : Outline).kind = _) ⟨body, argument, rfl⟩⟩
        · simp [same]
        · exact absurd (builds.origin ref member stored) (by simp)

end Abstraction

namespace Tree

/-- The node of a call with a single plain argument, and the value that the call passes. -/
def PassesAt (tree : Tree) (call : Ref) (value : Option Outline) : Prop :=
  ∃ term, term.ref = call ∧ tree.Stands term ∧ Passes term value

theorem PassesAt.of_frame {before after : Tree} {call : Ref} {value : Option Outline}
    (passes : before.PassesAt call value) (frame : Frame [] [] before after) :
    after.PassesAt call value := by
  obtain ⟨term, same, stands, passes⟩ := passes
  exact ⟨term, same, stands.of_growth frame, passes⟩

/-- The value of the only argument of a call is the one that the call passes. -/
theorem PassesAt.singleArgument? {call : Ref} {value : Option Outline}
    (passes : tree.PassesAt call value) :
    tree.singleArgument? call = some (refOf value) := by
  obtain ⟨term, rfl, stands, passes⟩ := passes
  exact singleArgument?_of_passes stands.shown passes

/-- The calls down the receivers pass values that stand apart from each other and from the member
access of the innermost call. -/
theorem exists_of_callsDownWithin {method : String} {bound : Nat} {child : Option Outline}
    (all : tree.StandsAll child.toList) : tree.callsDownWithin method bound (refOf child) = [] ∨
      ∃ anchor values, (tree.callsDownWithin method bound (refOf child)).getLast?.map (·.2.access)
          = some anchor.ref ∧ List.Forall₂ tree.PassesAt
        ((tree.callsDownWithin method bound (refOf child)).map (·.1)) values ∧
        tree.StandsAll (anchor :: values.flatMap Option.toList) ∧
        (anchor :: values.flatMap Option.toList).flatMap refs ⊆ child.toList.flatMap refs ∧
        (∃ receiver name conditional, anchor.kind = .member receiver name conditional) ∧
        ∃ outer ∈ child, (∃ callee arguments, outer.kind = .invoke callee arguments) ∧
          ∀ term ∈ anchor :: values.flatMap Option.toList, term ∈ outer.subterms := by
  induction bound generalizing child with
  | zero => exact .inl rfl
  | succ bound ih =>
    rw [callsDownWithin]
    split
    · rename_i isCall
      rw [isCallOf, Bool.and_eq_true, Option.isSome_iff_exists] at isCall
      obtain ⟨-, value, isPassed⟩ := isCall
      split
      · rename_i called isCalled
        right
        obtain ⟨call, rfl⟩ : ∃ call, child = some call := by
          cases child with
          | none => cases isCalled
          | some call => exact ⟨call, rfl⟩
        have stands := all.each call (by simp)
        obtain ⟨access, receiver, arguments, form, formAccess, isAccess, isReceiver⟩ :=
          calledMember?_eq_some stands.shown isCalled
        obtain ⟨value, ⟨callee, argument, form', formArgument⟩, rfl⟩ :=
          singleArgument?_eq_some stands.shown isPassed
        obtain ⟨rfl, rfl⟩ : callee = some access ∧ arguments = [argument] := by
          rw [form] at form'
          cases form'
          exact ⟨rfl, rfl⟩
        have passes : tree.PassesAt call.ref value :=
          ⟨call, rfl, stands, _, argument, form, formArgument⟩
        obtain ⟨standing, within⟩ := stands.calleeAndValue form formArgument
        have standsAccess := standing.each access (.head _)
        have childrenAccess : access.children = receiver.toList := by
          simp [Term.children, formAccess, parts]
        have standsReceiver := standsAccess.children.1
        rw [childrenAccess] at standsReceiver
        rw [isReceiver]
        have isCall : ∃ callee arguments, call.kind = .invoke callee arguments := ⟨_, _, form⟩
        have accessInside : access ∈ call.subterms :=
          child_mem_subterms (by simp [Term.children, form, parts])
        have argumentInside : argument ∈ call.subterms :=
          child_mem_subterms (by simp [Term.children, form, parts])
        have valueInside : ∀ term ∈ value, term ∈ call.subterms := fun term held =>
          subterms_child argumentInside (by
            simp [Term.children, formArgument, parts, Option.mem_def.1 held])
        rcases ih standsReceiver with none | ⟨anchor, values, isLast, passesOthers, inner,
          innerWithin, isMember, outer, isOuter, -, others⟩
        · rw [none]
          refine ⟨access, [value], by simp [isAccess], .cons passes .nil, by simpa using standing,
            by simpa using within, ⟨_, _, _, formAccess⟩, call, rfl, isCall,
              List.forall_mem_cons.2 ⟨accessInside, fun term held => ?_⟩⟩
          exact valueInside term (by simpa using held)
        · have below : (anchor :: values.flatMap Option.toList).flatMap refs ⊆ access.refs := by
            rw [refs_eq access, innerRefs, childrenAccess]
            exact List.subset_cons_of_subset _ innerWithin
          refine ⟨anchor, value :: values, ?_, .cons passes passesOthers, ?_, ?_, isMember, call,
            rfl, isCall, ?_⟩
          · rw [List.getLast?_cons, Option.map_some]
            cases last : (tree.callsDownWithin method bound (refOf receiver)).getLast? with
            | none => simp [last] at isLast
            | some call => simpa [last] using isLast
          · have all := standing.narrow inner below
            rw [List.flatMap_cons]
            exact all.perm (List.Perm.cons _ List.perm_append_comm)
          · intro ref member
            have inside : ref ∈ (access :: value.toList).flatMap refs := by
              simp only [List.flatMap_cons, List.flatMap_append, List.mem_append] at member below ⊢
              rcases member with inAnchor | inValue | inValues
              · exact .inl (below (by simp [inAnchor]))
              · exact .inr inValue
              · exact .inl (below (by simp [inValues]))
            simpa using within inside
          · have outerInside : outer ∈ access.subterms :=
              child_mem_subterms (by simp [childrenAccess, Option.mem_def.1 isOuter])
            obtain ⟨anchorInside, othersInside⟩ := List.forall_mem_cons.1 others
            have inCall {term : Outline} (inside : term ∈ outer.subterms) : term ∈ call.subterms :=
              subterms_trans (subterms_trans accessInside outerInside) inside
            refine List.forall_mem_cons.2 ⟨inCall anchorInside, fun term held => ?_⟩
            rw [List.flatMap_cons] at held
            rcases List.mem_append.1 held with isValue | isOther
            · exact valueInside term (by simpa using isValue)
            · exact inCall (othersInside term isOther)
      · exact .inl rfl
    · exact .inl rfl

/-- A node that calls a method, or anything with one argument, is an expression. -/
theorem isExpression_of_isCallOf {term : Outline} {method : String} (shown : term.All tree.Shows)
    (isCall : tree.isCallOf method term.ref = true) : term.kind.isExpression = true := by
  rw [isCallOf, Bool.and_eq_true, Option.isSome_iff_exists] at isCall
  obtain ⟨-, value, isPassed⟩ := isCall
  obtain ⟨_, ⟨callee, argument, form, -⟩, -⟩ := singleArgument?_eq_some shown isPassed
  rw [form]
  rfl

/-- From a part of a program one ascends to the call that is made on its result. -/
theorem IsProgram.ascends_of_callAround? {whole part : Outline} {method : String} {around : Ref}
    (program : tree.IsProgram whole) (within : part ∈ whole.subterms)
    (found : tree.callAround? method part.ref = some around) :
    ∃ call ∈ whole.subterms, call.ref = around ∧ call.kind.isExpression ∧
      ∀ high, Ascends call high → part.kind.isExpression → Ascends part high := by
  rw [callAround?] at found
  split at found
  · cases found
  · rename_i present
    rcases program.parent_cases within with ⟨-, top⟩ | ⟨access, inside, held, up⟩
    · exact absurd top present
    rw [up] at found
    split at found
    · rename_i receiver name conditional isAccess
      simp only [Bool.and_eq_true] at found
      split at found
      · rename_i isAround
        obtain rfl := Option.some.inj found
        have depicts := (program.stands.shows inside).depicts
        rw [isAccess] at depicts
        obtain ⟨_, form, -⟩ := depicts.member
        rcases program.parent_cases inside with ⟨-, top⟩ | ⟨call, isCall, heldAccess, upAccess⟩
        · rw [top] at isAround
          cases isAround.2
        · rw [upAccess] at isAround ⊢
          exact ⟨call, isCall, rfl, isExpression_of_isCallOf
            (program.stands.subterm isCall).shown isAround.2, fun high ascends isExpression =>
            .step isExpression held (.step (by rw [form]; rfl) heldAccess ascends)⟩
      · cases found
    · cases found

/-- From a call in a program one ascends to the outermost call of its run. -/
theorem IsProgram.ascends_outermostCall {whole part : Outline} {method : String}
    (program : tree.IsProgram whole) (within : part ∈ whole.subterms) :
    ∃ outer ∈ whole.subterms, outer.ref = tree.outermostCall method part.ref ∧
      (part.kind.isExpression → Ascends part outer) := by
  have upward (bound : Nat) {part : Outline} (within : part ∈ whole.subterms) :
      ∃ outer ∈ whole.subterms, outer.ref = tree.outermostCallWithin method bound part.ref ∧
        (part.kind.isExpression → Ascends part outer) := by
    induction bound generalizing part with
    | zero => exact ⟨part, within, rfl, .refl⟩
    | succ bound ih =>
      rw [outermostCallWithin]
      split
      · rename_i found
        obtain ⟨call, isCall, rfl, isExpressionCall, ascends⟩ :=
          program.ascends_of_callAround? within found
        obtain ⟨outer, isOuter, same, above⟩ := ih isCall
        exact ⟨outer, isOuter, same, ascends outer (above isExpressionCall)⟩
      · exact ⟨part, within, rfl, .refl⟩
  exact upward _ within

end Tree

namespace CallRun

variable {model : Model} {placeholder method : String} {accepts : Acceptance}

/-- The functions of calls are that of the first, if it passes the test, and those of the others. -/
theorem functionsOf?_cons {place : Nat} {tree after : Tree} {call value : Ref}
    {found : Option Abstraction}
    (calls : List Ref) (passed : tree.singleArgument? call = some value)
    (denotes : Abstraction.of? model placeholder value tree = (found, after)) :
    functionsOf? model placeholder accepts place (call :: calls) tree =
    found.elim (none, after) fun function => if accepts after function place then
        (functionsOf? model placeholder accepts (place + 1) calls after).map
        (Option.map (function :: ·)) id else (none, after) := by
  rw [functionsOf?, Edit.get_bind, passed]
  simp only [Edit.bind_apply, denotes]
  cases found with
  | none => rfl
  | some function =>
    change (if accepts after function place then _ else _ : Edit _) after = _
    rw [Option.elim_some]
    cases accepts after function place <;> rfl

/-- A function is what an expression denotes, and it was accepted where its body stands. -/
def Draws (model : Model) (placeholder : String) (accepts : Acceptance) (value : Outline)
    (function : Abstraction)
    (body : Option Outline) : Prop :=
  Abstraction.Denotes model placeholder value function body ∧
    ∃ tree place, accepts tree function place = true ∧ tree.StandsAll body.toList

/-- The functions of calls have bodies within what the calls pass or new ones, and nothing is
touched. -/
theorem functionsOf?_finds {place : Nat} {calls : List Ref} {values : List (Option Outline)}
    {tree : Tree}
    (passes : List.Forall₂ tree.PassesAt calls values) (stored : tree.Stored)
    (all : tree.StandsAll (values.flatMap Option.toList)) :
    ∃ found after, functionsOf? model placeholder accepts place calls tree = (found, after) ∧
      Frame [] [] tree after ∧ ∀ functions, found = some functions →
        (∃ bodies, List.Forall₂ Abstraction.HasBody functions bodies ∧
          Finds (values.flatMap Option.toList) tree after (bodies.flatMap Option.toList) ∧
          List.Forall₂ (fun function body => ∃ value ∈ values.flatMap Option.toList,
            Draws model placeholder accepts value function body) functions bodies) ∧
        ∀ function ∈ functions, ∃ tree place, accepts tree function place := by
  induction calls generalizing place tree values with
  | nil =>
    cases passes
    refine ⟨some [], tree, rfl, .refl tree, ?_⟩
    rintro _ ⟨rfl⟩
    exact ⟨⟨[], .nil, ⟨.refl tree, .nil, by simp⟩, .nil⟩, by simp⟩
  | cons call calls ih =>
    obtain ⟨value, values, isPassed, others, rfl⟩ := List.forall₂_cons_left_iff.1 passes
    rw [List.flatMap_cons] at all
    obtain ⟨found, middle, denoted, frame, isDenoted⟩ :=
      @Abstraction.of?_finds model placeholder _ _ stored (StandsAll.append_iff.1 all).1
    rw [functionsOf?_cons calls isPassed.singleArgument? denoted]
    cases found with
    | none => exact ⟨none, middle, rfl, frame, by simp⟩
    | some function =>
      obtain ⟨body, hasBody, finds, term, isValue, denotes⟩ := isDenoted function rfl
      cases isAccepted : accepts middle function place with
      | false => exact ⟨none, middle, by simp [isAccepted], frame, by simp⟩
      | true =>
        obtain ⟨found, after, foundOthers, frameOthers, areFound⟩ := @ih (place + 1) values middle
          (others.imp fun _ _ passes => passes.of_frame frame) (frame.stored stored)
          ((StandsAll.append_iff.1 all).2.1.of_frame frame)
        refine ⟨found.map (function :: ·), after, ?_, frame.grow frameOthers, ?_⟩
        · simp [isAccepted, foundOthers]
        · intro functions isSome
          obtain ⟨functions, rfl, rfl⟩ := Option.map_eq_some_iff.1 isSome
          obtain ⟨⟨bodies, haveBodies, findsOthers, drawOthers⟩, areAccepted⟩ :=
            areFound functions rfl
          refine ⟨⟨body :: bodies, .cons hasBody haveBodies, ?_, .cons
            ⟨term, ?_, denotes, middle, place, isAccepted, finds.stands⟩ (drawOthers.imp ?_)⟩, ?_⟩
          · rw [List.flatMap_cons, List.flatMap_cons]
            exact finds.append findsOthers all
          · simp [Option.mem_def.1 isValue]
          · rintro other body ⟨value, isValue, draws⟩
            exact ⟨value, by simp only [List.flatMap_cons, List.mem_append, isValue,
              or_true], draws⟩
          · intro other member
            rcases List.mem_cons.1 member with rfl | member
            · exact ⟨middle, place, isAccepted⟩
            · exact areAccepted other member

/-- A run that was found in a program: its member access and the bodies of its functions stand apart
from each other, and what is not new of them lies within the outermost call. -/
structure Stands (run : CallRun) (accepts : Acceptance) (whole : Outline) (tree : Tree)
    (outer anchor : Outline)
    (bodies : List (Option Outline)) : Prop where
  /-- The outermost call is a part of the program. -/
  within : outer ∈ whole.subterms
  /-- It is where the run says. -/
  isOuter : outer.ref = run.outer
  /-- So is the member access. -/
  isAnchor : anchor.ref = run.anchor
  /-- The functions have the bodies. -/
  haveBodies : List.Forall₂ Abstraction.HasBody run.functions bodies
  /-- They stand apart. -/
  standing : tree.StandsAll (anchor :: bodies.flatMap Option.toList)
  /-- They bring in nothing from the rest of the program. -/
  origin : ∀ ref ∈ (anchor :: bodies.flatMap Option.toList).flatMap refs, ref ∈ whole.refs →
    ref ∈ outer.refs
  /-- The functions were accepted. -/
  accepted : ∀ function ∈ run.functions, ∃ tree place, accepts tree function place

/-- Where the parts come from of a run that was found: its member access lies in the outermost call,
and its functions are denoted by expressions in there. -/
structure IsDrawn (run : CallRun) (model : Model) (placeholder : String) (accepts : Acceptance)
    (outer anchor : Outline)
    (bodies : List (Option Outline)) : Prop where
  /-- The outermost call is one. -/
  isCall : ∃ callee arguments, outer.kind = .invoke callee arguments
  /-- The member access is one. -/
  isMember : ∃ receiver name conditional, anchor.kind = .member receiver name conditional
  /-- It lies in the outermost call. -/
  anchored : anchor ∈ outer.subterms
  /-- The functions are what expressions in the outermost call denote. -/
  draw : List.Forall₂ (fun function body =>
    ∃ value ∈ outer.subterms, Draws model placeholder accepts value function body)
    run.functions bodies

/-- A run stands in a program, and from one of some calls one ascends to its outermost call. -/
def IsReached (run : CallRun) (model : Model) (placeholder : String) (accepts : Acceptance)
    (whole : Outline) (tree : Tree)
    (calls : List Ref) : Prop :=
  ∃ outer anchor bodies, run.Stands accepts whole tree outer anchor bodies ∧
    run.IsDrawn model placeholder accepts outer anchor bodies ∧
    ∃ call ∈ whole.subterms, call.ref ∈ calls ∧ Ascends call outer

/-- The calls of a run in a program pass values that stand apart from each other and from the member
access of the innermost call, which comes first. -/
theorem exists_of_runCalls {call whole : Outline} (program : tree.IsProgram whole)
    (isPart : call ∈ whole.subterms) {first : Ref × CalledMember}
    (isFirst : (tree.runCalls method call.ref).head? = some first) :
    ∃ outer anchor values, outer ∈ whole.subterms ∧ outer.ref = tree.outermostCall method call.ref ∧
      (call.kind.isExpression → Ascends call outer) ∧
      anchor.ref = first.2.access ∧
      List.Forall₂ tree.PassesAt ((tree.runCalls method call.ref).map (·.1)) values ∧
      tree.StandsAll (anchor :: values.flatMap Option.toList) ∧
      (anchor :: values.flatMap Option.toList).flatMap refs ⊆ outer.refs ∧
      (∃ callee arguments, outer.kind = .invoke callee arguments) ∧
      (∃ receiver name conditional, anchor.kind = .member receiver name conditional) ∧
      ∀ term ∈ anchor :: values.flatMap Option.toList, term ∈ outer.subterms := by
  obtain ⟨outer, within, same, ascends⟩ :=
    @IsProgram.ascends_outermostCall tree whole call method program isPart
  have standsOuter : tree.StandsAll (some outer).toList :=
    StandsAll.singleton_iff.2 (program.stands.subterm within)
  rw [runCalls, List.head?_reverse] at isFirst
  rcases @exists_of_callsDownWithin tree method tree.depthBound _ standsOuter with
    none | ⟨anchor, values, isLast, passes, all, inside, isMember, _, ⟨⟩, isCall, partsInside⟩
  · rw [refOf_some, same] at none
    rw [none] at isFirst
    cases isFirst
  · rw [refOf_some, same] at isLast passes
    rw [isFirst] at isLast
    refine ⟨outer, anchor, values.reverse, within, same, ascends, (Option.some.inj isLast).symm, ?_,
      ?_, ?_, isCall, isMember, fun term held => partsInside term ?_⟩
    · rw [runCalls, List.map_reverse]
      exact List.rel_reverse passes
    · exact all.perm (List.Perm.cons _ ((List.reverse_perm values).symm.flatMap_right _))
    · have same : (anchor :: values.reverse.flatMap Option.toList).Perm
          (anchor :: values.flatMap Option.toList) :=
        List.Perm.cons _ ((List.reverse_perm values).flatMap_right _)
      refine List.Subset.trans (same.flatMap_right refs).subset ?_
      simpa using inside
    · simpa using held

/-- A search for a run in a program touches nothing, and the run that it finds stands. From one of
the candidates one ascends to its outermost call. -/
theorem searchAmong_stands {whole : Outline} {seen candidates : List Ref} {tree : Tree}
    (program : tree.IsProgram whole) (within : candidates ⊆ whole.refs) :
    ∃ search after, searchAmong model placeholder method accepts seen candidates tree =
    (search, after) ∧ Frame [] [] tree after ∧ ∀ run, search.found = some run →
      run.IsReached model placeholder accepts whole after candidates := by
  induction candidates generalizing seen tree with
  | nil => exact ⟨⟨[], none⟩, tree, rfl, .refl tree, by simp⟩
  | cons candidate candidates ih =>
    obtain ⟨member, within⟩ := List.cons_subset.1 within
    have later {run : CallRun} {after : Tree}
        (found : run.IsReached model placeholder accepts whole after candidates) :
        run.IsReached model placeholder accepts whole after (candidate :: candidates) := by
      obtain ⟨outer, anchor, bodies, stands, drawn, call, isPart, isCandidate, ascends⟩ := found
      exact ⟨outer, anchor, bodies, stands, drawn, call, isPart, .tail _ isCandidate, ascends⟩
    rw [searchAmong]
    cases skipped : seen.contains candidate || !tree.isOnCallOf method candidate with
    | true =>
      obtain ⟨search, after, searched, frame, found⟩ := @ih seen tree program within
      refine ⟨search, after, ?_, frame, fun run isFound => later (found run isFound)⟩
      rw [Edit.get_bind, skipped]
      exact searched
    | false =>
      -- Whatever the attempt at this candidate comes to, the search may go on from there.
      have goesOn {middle : Tree} (frame : Frame [] [] tree middle) (seen : List Ref) :
          ∃ search after, searchAmong model placeholder method accepts seen candidates middle
            = (search, after) ∧ Frame [] [] tree after ∧ ∀ run, search.found = some run →
              run.IsReached model placeholder accepts whole after (candidate :: candidates) := by
        obtain ⟨search, after, searched, frame', found⟩ :=
          @ih seen middle (program.of_frame frame) within
        exact ⟨search, after, searched, frame.grow frame', fun run isFound =>
          later (found run isFound)⟩
      obtain ⟨call, isPart, rfl⟩ := mem_refs.1 member
      have isExpression : call.kind.isExpression := by
        rw [Bool.or_eq_false_iff, Bool.not_eq_false', isOnCallOf, Option.any_eq_true] at skipped
        obtain ⟨-, called, isCalled, -⟩ := skipped
        obtain ⟨_, _, _, form, -⟩ :=
          calledMember?_eq_some (program.stands.subterm isPart).shown isCalled
        rw [form]
        rfl
      cases isFirst : (tree.runCalls method call.ref).head? with
      | none =>
        have noCalls := List.head?_eq_none_iff.1 isFirst
        obtain ⟨search, after, searched, found⟩ := goesOn (.refl tree) seen
        refine ⟨{ search with rejected := 0 :: search.rejected }, after, ?_, found⟩
        rw [Edit.get_bind, skipped]
        simp only [Bool.false_eq_true, if_false, Edit.bind_apply]
        rw [isFirst, noCalls]
        exact congrArg (fun searched : RunSearch × Tree =>
          ({ searched.1 with rejected := 0 :: searched.1.rejected }, searched.2)) searched
      | some first =>
        obtain ⟨outer, anchor, values, isOuterPart, isOuter, ascends, isAnchor, passes, all, inside,
          isCall, isMember, partsInside⟩ := exists_of_runCalls program isPart isFirst
        obtain ⟨found, middle, tried, frame, isFound⟩ :=
          @functionsOf?_finds model placeholder accepts 0 _ _ _
          passes program.stored (StandsAll.cons_iff.1 all).2.1
        rw [Edit.get_bind, skipped]
        simp only [Bool.false_eq_true, if_false, Edit.bind_apply, tried]
        rw [isFirst]
        obtain ⟨search, after, searched, frameOn, isFoundOn⟩ :=
          goesOn frame ((tree.runCalls method call.ref).map (·.1) ++ seen)
        have passedOver : (do
            let search ← searchAmong model placeholder method accepts
              ((tree.runCalls method call.ref).map (·.1) ++ seen) candidates
            return { search with
              rejected := (tree.runCalls method call.ref).length :: search.rejected } :
              Edit RunSearch) middle =
            ({ search with rejected := (tree.runCalls method call.ref).length :: search.rejected },
              after) := by
          rw [Edit.bind_apply, searched]
          rfl
        rcases found with _ | _ | ⟨function, functions⟩
        · exact ⟨_, after, passedOver, frameOn, isFoundOn⟩
        · exact ⟨_, after, passedOver, frameOn, isFoundOn⟩
        · obtain ⟨⟨bodies, haveBodies, finds, draw⟩, areAccepted⟩ := isFound _ rfl
          refine ⟨_, middle, rfl, frame, ?_⟩
          rintro _ ⟨rfl⟩
          have standsAnchor := StandsAll.singleton_iff.2 (StandsAll.cons_iff.1 all).1
          have both := (Finds.refl standsAnchor).append finds all
          refine ⟨outer, anchor, bodies, ?_, ?_, call, isPart, .head _, ascends isExpression⟩
          · refine ⟨isOuterPart, isOuter, isAnchor, haveBodies, both.stands, ?_, areAccepted⟩
            exact fun ref made inWhole =>
              inside (both.origin ref made (program.stands.hasRef inWhole))
          · refine ⟨isCall, isMember, partsInside anchor (.head _), draw.imp ?_⟩
            rintro _ _ ⟨value, isValue, draws⟩
            exact ⟨value, partsInside value (.tail _ isValue), draws⟩

/-- A search for a run in a program touches nothing, and the run that it finds stands. From a call
in the node that was searched one ascends to its outermost call. -/
theorem search_stands {whole : Outline} {container : Ref} {tree : Tree}
    (program : tree.IsProgram whole)
    (member : container ∈ whole.refs) :
    ∃ found after, search model placeholder method container accepts tree = (found, after) ∧
      Frame [] [] tree after ∧ ∀ run, found.found = some run →
      run.IsReached model placeholder accepts whole after (tree.descendants container) := by
  obtain ⟨found, after, searched, frame, isFound⟩ :=
    @searchAmong_stands model placeholder method accepts whole []
      (tree.callsOf method container) tree program fun call isCall =>
        program.descendants_subset member (List.mem_of_mem_filter isCall)
  refine ⟨found, after, searched, frame, fun run isRun => ?_⟩
  obtain ⟨outer, anchor, bodies, stands, drawn, call, isPart, isCandidate, ascends⟩ :=
    isFound run isRun
  exact ⟨outer, anchor, bodies, stands, drawn, call, isPart,
    List.mem_of_mem_filter isCandidate, ascends⟩

end CallRun

end Refactory
