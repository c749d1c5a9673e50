import Mathlib.Data.Option.Basic
import Refactory.Proofs.Code.Composition
import Refactory.Proofs.Code.Placing
import Refactory.Proofs.Refactoring.Attempt

/-!
# Inverting quantifiers keeps programs

Inverting a quantifier changes three places of a program, from the inside out: the body of the
predicate (`Negates`), the name of the method (`Dualizes`), and what stands in the place of the call
(`NegatesCall`). Each change leaves a program (`Quantifies.invert`), and the relations say what
stands in it afterwards. Nothing is said here of what code means.
-/
namespace Refactory

open Term Refactory.Tree Abstraction

/-- A call of a quantifier over a receiver with a lambda of one parameter for its predicate. -/
structure Quantifies (quantifier : Quantifier) (term access argument lambda param : Outline)
    (receiver body : Option Outline) (conditional parenthesized : Bool) : Prop where
  /-- It calls a member and passes one argument. -/
  form : term.kind = .invoke (some access) [argument]
  /-- The member is the method of the quantifier. -/
  formAccess : access.kind = .member receiver quantifier.method conditional
  /-- The argument is plain. -/
  formArgument : argument.kind = .argument .plain (some lambda)
  /-- It is a lambda of one parameter. -/
  formLambda : lambda.kind = .lambda [param] body parenthesized

/-- Whether an expression of the kind reads what a name, a member or a call gives. -/
def Kind.isReading {one many : Type} : Kind one many → Bool
  | ident _ | member _ _ _ | invoke _ _ => true
  | _ => false

/-- Whether a kind is a reading does not depend on its children. -/
theorem Kind.isReading_of_skeleton {one many one' many' : Type} {kind : Kind one many}
    {other : Kind one' many'}
    (same : kind.skeleton = other.skeleton) : kind.isReading = other.isReading :=
  eq_of_skeleton (fun kind => kind.isReading) (fun kind => by cases kind <;> rfl) same

/-- What the body of a predicate becomes when it is negated. -/
inductive Negates : Outline → Option Outline → Prop
  /-- A negation gives what it negates. -/
  | drop {body : Outline} {operand : Option Outline} (form : body.kind = .unary .not operand) :
      Negates body operand
  /-- Parentheses after a dropped negation are dropped with it. -/
  | unwrap {body wrapped : Outline} {inner : Option Outline}
      (form : body.kind = .unary .not (some wrapped))
      (formWrapped : wrapped.kind = .paren inner) : Negates body inner
  /-- A comparison becomes its opposite. -/
  | compare {body : Outline} {op opposite : BinaryOp} {left right : Option Outline} (place : Place)
      (form : body.kind = .binary op left right) (opposed : op.negated? = some opposite) :
      Negates body (some (.node place (.binary opposite left right)))
  /-- What is read is negated as it is. -/
  | add {body : Outline} (place : Place) (reading : body.kind.isReading) :
      Negates body (some (.node place (.unary .not (some body))))

/-- A call of a quantifier becomes a call of the other one over the same receiver, with the body of
the predicate negated. -/
inductive Dualizes (quantifier : Quantifier) (receiver : Option Outline)
    (term : Outline) : Outline → Prop
  | intro {new access argument lambda access' argument' lambda' param body : Outline}
      {body' : Option Outline}
      {conditional parenthesized : Bool} (same : new.ref = term.ref)
      (before : Quantifies quantifier term access argument lambda param receiver
        (some body) conditional parenthesized)
      (after : Quantifies quantifier.dual new access' argument' lambda' param receiver body'
        conditional parenthesized)
      (negates : Negates body body') : Dualizes quantifier receiver term new

/-- A term with any number of parentheses around it. -/
inductive Wraps (term : Outline) : Outline → Prop
  /-- No parentheses. -/
  | bare : Wraps term term
  /-- Parentheses around the term with its other parentheses. -/
  | paren {around outer : Outline} (form : outer.kind = .paren (some around))
      (wraps : Wraps term around) :
      Wraps term outer

/-- A term is below its parentheses. -/
theorem Wraps.mem_subterms {term around : Outline}
    (wraps : Wraps term around) : term ∈ around.subterms := by
  induction wraps with
  | bare => exact self_mem_subterms term
  | paren form _ ih => exact mem_subterms_of_child (by simp [Term.children, form, Term.parts]) ih

/-- What is wrapped in parentheses may be a pair of them. -/
theorem Wraps.inward {term holder around : Outline} (form : holder.kind = .paren (some term))
    (wraps : Wraps holder around) : Wraps term around := by
  induction wraps with
  | bare => exact .paren form .bare
  | paren formOuter _ ih => exact .paren formOuter ih

/-- What comes in the place of what when a call is negated where it stands. -/
inductive NegatesCall (term : Outline) : Outline → Outline → Prop
  /-- The call comes in the place of its negation, whatever parentheses are between. -/
  | remove {around target : Outline} (wraps : Wraps term around)
      (form : target.kind = .unary .not (some around)) :
      NegatesCall term target term
  /-- The call is negated. -/
  | add (place : Place) : NegatesCall term term (.node place (.unary .not (some term)))
  /-- The negation of the call is put in parentheses. -/
  | wrap (place outer : Place) :
      NegatesCall term term (.node outer (.paren (some (.node place (.unary .not (some term))))))

/-- A quantifier call in a program is inverted: it becomes its dual, and the dual is negated. -/
inductive Inverts (quantifier : Quantifier) (receiver : Option Outline)
    (whole term : Outline) : Outline → Prop
  | intro {dual target new : Outline} (within : term ∈ whole.subterms)
      (dualizes : Dualizes quantifier receiver term dual)
      (once : (Term.swap term.ref dual whole).refs.Nodup)
      (isTarget : target ∈ (Term.swap term.ref dual whole).subterms)
      (below : dual ∈ target.subterms)
      (negates : NegatesCall dual target new) :
      Inverts quantifier receiver whole term
        (Term.swap target.ref new (Term.swap term.ref dual whole))

/-- The call that is inverted lies in the program. -/
theorem Inverts.within {quantifier : Quantifier} {receiver : Option Outline}
    {whole term after : Outline}
    (inverts : Inverts quantifier receiver whole term after) : term ∈ whole.subterms := by
  obtain ⟨within, -⟩ := inverts
  exact within

/-- The call that is inverted calls a member of the receiver. -/
theorem Inverts.calls {quantifier : Quantifier} {receiver : Option Outline}
    {whole term after : Outline}
    (inverts : Inverts quantifier receiver whole term after) : ∃ access arguments name conditional,
      term.kind = .invoke (some access) arguments ∧
      access.kind = .member receiver name conditional := by
  obtain ⟨-, ⟨-, before, -, -⟩, -⟩ := inverts
  exact ⟨_, _, _, _, before.form, before.formAccess⟩

namespace Tree

/-- Only the name of a method makes it one of a quantifier. -/
theorem method_of_ofMethod? {quantifier : Quantifier} {name : String}
    (found : Quantifier.ofMethod? name = some quantifier) : name = quantifier.method := by
  rw [Quantifier.ofMethod?] at found
  exact (beq_iff_eq.1 (List.find?_some found :)).symm

/-- A quantifier call that is found at a term is one, its parts lie below the term, and the body of
its predicate can be negated. -/
theorem exists_quantifies {tree : Tree} {term : Outline} {call : QuantifierCall}
    (shown : term.All tree.Shows) (found : tree.quantifierCall? term.ref = some call) :
    ∃ access argument lambda param receiver body conditional parenthesized,
      Quantifies call.quantifier term access argument lambda param receiver (some body) conditional
        parenthesized ∧ call.call = term.ref ∧ tree.isNegatable body.ref ∧
      tree.calledMember? term.ref =
        some ⟨access.ref, refOf receiver, call.quantifier.method, conditional⟩ ∧
      tree.singleArgument? term.ref = some lambda.ref := by
  simp only [quantifierCall?, Option.bind_eq_bind, Option.bind_eq_some_iff, Option.pure_def,
    Option.some.injEq, Option.guard_eq_some'] at found
  obtain ⟨called, isCalled, quantifier, isQuantifier, lambda, isPassed, parts, isLambda, -,
    negatable, rfl⟩ := found
  obtain ⟨access, receiver, arguments, form, formAccess, isAccess, isReceiver⟩ :=
    calledMember?_eq_some shown isCalled
  obtain ⟨value, ⟨callee, argument, form', formArgument⟩, rfl⟩ :=
    singleArgument?_eq_some shown isPassed
  obtain ⟨rfl, rfl⟩ : callee = some access ∧ arguments = [argument] := by
    rw [form] at form'
    cases form'
    exact ⟨rfl, rfl⟩
  obtain ⟨lambda, rfl⟩ : ∃ term, value = some term := by
    cases value with
    | none => cases isLambda
    | some term => exact ⟨term, rfl⟩
  have argumentChild : argument ∈ term.children := by simp [Term.children, form, Term.parts]
  have lambdaChild : lambda ∈ argument.children := by simp [Term.children, formArgument, Term.parts]
  obtain ⟨param, body, -, formLambda, -, -, isBody⟩ :=
    simpleLambda?_eq_some ((shown.child argumentChild).child lambdaChild) isLambda
  rw [isBody] at negatable
  obtain ⟨body, rfl⟩ : ∃ term, body = some term := by
    cases body with
    | none => cases negatable
    | some term => exact ⟨term, rfl⟩
  have isMethod := method_of_ofMethod? isQuantifier
  refine ⟨access, argument, lambda, param, receiver, body, called.conditional, parts.parenthesized,
    ⟨form, isMethod ▸ formAccess, formArgument, formLambda⟩, rfl, negatable, ?_, isPassed⟩
  rw [isCalled, ← isAccess, ← isReceiver, ← isMethod]

/-- The parentheses around a part of a program are around the part. -/
theorem IsProgram.exists_aroundParens {tree : Tree} {whole part : Outline}
    (program : tree.IsProgram whole)
    (within : part ∈ whole.subterms) (bound : Nat) :
    ∃ around ∈ whole.subterms, tree.aroundParens part.ref (tree.ancestorsWithin bound part.ref) =
    around.ref ∧ part ∈ around.subterms ∧ Wraps part around := by
  induction bound generalizing part with
  | zero => exact ⟨part, within, rfl, self_mem_subterms part, .bare⟩
  | succ bound ih =>
    rw [ancestorsWithin]
    rcases program.parent_cases within with ⟨-, top⟩ | ⟨holder, inside, held, up⟩
    · rw [top]
      exact ⟨part, within, rfl, self_mem_subterms part, .bare⟩
    · obtain ⟨number, -, place⟩ := program.stands.hasRef (mem_refs.2 ⟨holder, inside, rfl⟩)
      rw [up, place]
      dsimp only
      rw [aroundParens]
      split
      · rename_i isParen
        obtain ⟨around, isAround, same, below, wraps⟩ := ih inside
        rw [place] at same
        refine ⟨around, isAround, same, subterms_child below held, .inward ?_ wraps⟩
        have depicts := (program.stands.shows inside).depicts
        rw [place, isParen] at depicts
        obtain ⟨inner, form, -⟩ := depicts.paren
        obtain rfl : inner = some part := by simpa [Term.children, form, Term.parts] using held
        exact form
      · exact ⟨part, within, rfl, self_mem_subterms part, .bare⟩

end Tree

namespace QuantifierCall

/-- The negation of a body that can be negated is made of the body. -/
theorem negated_builds {tree : Tree} {body : Outline} (negatable : tree.isNegatable body.ref)
    (stored : tree.Stored)
    (stands : tree.Stands body) : ∃ new after, negated body.ref tree = .ok (refOf new, after) ∧
      Builds [body] tree after new.toList ∧ Negates body new := by
  have depicts := stands.shown.here.depicts
  have standsChildren := stands.children.1
  -- What is below the body may be taken instead of it.
  have below {inputs outputs : List Outline} {after : Tree}
      (builds : Builds inputs tree after outputs)
      (same : inputs = body.children) : Builds [body] tree after outputs := by
    refine builds.of_refs_subset fun ref member => ?_
    rw [List.flatMap_singleton, refs_eq, innerRefs, ← same]
    exact .tail _ member
  have added (same : negated body.ref tree = .ok (Build.unary .not body.ref tree))
      (reading : (tree.kind body.ref).isReading) : ∃ new after, negated body.ref tree
        = .ok (refOf new, after) ∧ Builds [body] tree after new.toList ∧ Negates body new := by
    obtain ⟨_, _, after, made, builds, place, rfl, rfl⟩ :=
      @Build.unary_makes tree (some body) .not stored (StandsAll.singleton_iff.2 stands)
    rw [Kind.isReading_of_skeleton depicts.skeleton] at reading
    exact ⟨some (.node place (.unary .not (some body))), after, same.trans (congrArg _ made),
      builds, .add place reading⟩
  rw [isNegatable] at negatable
  split at negatable
  · rename_i op operand isUnary
    obtain rfl := beq_iff_eq.1 negatable
    rw [isUnary] at depicts
    obtain ⟨operand, form, rfl⟩ := depicts.unary
    have children : body.children = operand.toList := by simp [Term.children, form, Term.parts]
    rw [children] at standsChildren
    rw [negated, Change.get_bind]
    simp only [isUnary]
    cases isParen : tree.kind (refOf operand) with
    | paren inner =>
      obtain ⟨wrapped, rfl⟩ := exists_of_kind isParen (by simp)
      have standsWrapped := standsChildren.each wrapped (by simp)
      have depicts := standsWrapped.shown.here.depicts
      rw [show tree.kind wrapped.ref = _ from isParen] at depicts
      obtain ⟨inner, formWrapped, rfl⟩ := depicts.paren
      have childrenWrapped : wrapped.children = inner.toList := by
        simp [Term.children, formWrapped, Term.parts]
      have standsInner := standsWrapped.children.1
      rw [childrenWrapped] at standsInner
      have found : Builds [wrapped] tree tree inner.toList := by
        refine (Builds.refl standsInner).of_refs_subset ?_
        rw [List.flatMap_singleton, refs_eq, innerRefs, childrenWrapped]
        exact List.subset_cons_self _ _
      exact ⟨inner, tree, rfl, below found children.symm, .unwrap form formWrapped⟩
    | _ => exact ⟨operand, tree, rfl, below (.refl standsChildren) children.symm, .drop form⟩
  · rename_i op left right isBinary
    obtain ⟨opposite, isOpposite⟩ := Option.isSome_iff_exists.1 negatable
    rw [isBinary] at depicts
    obtain ⟨left, right, form, rfl, rfl⟩ := depicts.binary
    have same : Term.parts (.binary opposite left right) = body.children := by
      simp [Term.children, form, Term.parts]
    rw [← same] at standsChildren
    have holdsLeft : tree.Holds (.one (refOf left)) (.one left) :=
      standsChildren.holds (by simp [Term.parts])
    have holdsRight : tree.Holds (.one (refOf right)) (.one right) :=
      standsChildren.holds (by simp [Term.parts])
    obtain ⟨_, _, after, made, builds, place, rfl, rfl⟩ := @Build.alloc_makes tree
      (.binary opposite (refOf left) (refOf right)) (.binary opposite left right)
        (tree.span body.ref) stored ⟨.cons holdsLeft (.cons holdsRight .nil), rfl⟩ standsChildren
    refine ⟨some (.node place (.binary opposite left right)), after, ?_, below builds same,
      .compare place form isOpposite⟩
    rw [negated, Change.get_bind]
    simp only [isBinary, isOpposite]
    exact (Change.require_bind ..).trans (congrArg Except.ok made)
  -- What is named, accessed or called gets a negation.
  iterate 3
    · rename_i isKind
      exact added (by rw [negated, Change.get_bind]; simp only [isKind]; rfl) (by rw [isKind]; rfl)
  · cases negatable

variable {tree : Tree} {whole : Outline}

/-- A negation around a call is removed, with the parentheses between: the call comes in its
place. -/
theorem negateCall_removes {term around above : Outline} (program : tree.IsProgram whole)
    (within : above ∈ whole.subterms)
    (form : above.kind = .unary .not (some around)) (below : term ∈ around.subterms)
    (same : tree.aroundParens term.ref (tree.ancestors term.ref) = around.ref) :
    ∃ after, negateCall term.ref tree = .ok ((), after) ∧ tree.Places after whole above term := by
  have held : around ∈ above.children := by simp [Term.children, form, Term.parts]
  have termAbove := subterms_trans (child_mem_subterms held) below
  have prepares : Prepares tree tree whole above [term] :=
    ⟨⟨[], [], .refl tree, by simp, by simp⟩,
      StandsAll.singleton_iff.2 (program.stands.subterm (subterms_trans within termAbove)),
      fun ref inside _ => refs_subset termAbove (by simpa using inside)⟩
  obtain ⟨after, put, isProgram, spares, -⟩ := prepares.put program within
  obtain ⟨number, -, place⟩ := program.stands.hasRef (mem_refs.2 ⟨above, within, rfl⟩)
  have depicts := (program.stands.shows within).depicts
  rw [form] at depicts
  have isNegation : tree.isNegation above.ref = true := by rw [Tree.isNegation, depicts.of_unary]
  have isSome : above.ref.isSome = true := by rw [place, Option.isSome_some]
  refine ⟨after, ?_, within, isProgram, spares⟩
  rw [negateCall, Change.get_bind]
  dsimp only
  rw [same, program.stands.parent within held, isNegation, isSome]
  exact put

/-- What is built of a part of a program is put in the place of the part. -/
theorem put_built {term new : Outline} {middle : Tree} (program : tree.IsProgram whole)
    (within : term ∈ whole.subterms)
    (builds : Builds [term] tree middle [new]) :
    ∃ after, Change.put (tree.parent term.ref) term.ref new.ref middle = .ok ((), after) ∧
      tree.Places after whole term new := by
  have prepares := (builds.reworks (List.Subset.refl _)).prepares program fun ref _ inside =>
    (by simpa using inside)
  obtain ⟨after, put, isProgram, spares, -⟩ := prepares.put program within
  exact ⟨after, put, within, isProgram, spares⟩

/-- Negating a call in a program gives a program. -/
theorem negateCall_isProgram {term : Outline} (program : tree.IsProgram whole)
    (within : term ∈ whole.subterms) :
    ∃ after target new, negateCall term.ref tree = .ok ((), after) ∧ term ∈ target.subterms ∧
      NegatesCall term target new ∧ tree.Places after whole target new := by
  have stands := program.stands.subterm within
  obtain ⟨around, isAround, same, below, wraps⟩ :=
    program.exists_aroundParens within tree.depthBound
  replace same : tree.aroundParens term.ref (tree.ancestors term.ref) = around.ref := same
  by_cases negation : (tree.parent around.ref).isSome && tree.isNegation (tree.parent around.ref)
  · obtain ⟨isSome, isNegation⟩ := Bool.and_eq_true_iff.1 negation
    rcases program.parent_cases isAround with ⟨-, top⟩ | ⟨above, inside, held, up⟩
    · rw [top] at isSome
      cases isSome
    · have form : above.kind = .unary .not (some around) := by
        rw [up, Tree.isNegation] at isNegation
        split at isNegation
        · rename_i isUnary
          have depicts := (program.stands.shows inside).depicts
          rw [isUnary] at depicts
          obtain ⟨operand, form, -⟩ := depicts.unary
          obtain rfl : operand = some around := by
            simpa [Term.children, form, Term.parts] using held
          exact form
        · cases isNegation
      obtain ⟨after, negated, places⟩ := negateCall_removes program inside form below same
      exact ⟨after, above, term, negated, subterms_trans (child_mem_subterms held) below,
        .remove wraps form, places⟩
  · rw [negateCall, Change.get_bind]
    dsimp only
    rw [same, if_neg negation]
    have negates :=
      @Build.unary_makes tree (some term) .not program.stored (StandsAll.singleton_iff.2 stands)
    obtain ⟨_, _, negated, made, builds, place, rfl, rfl⟩ := negates
    rw [Change.lift_bind, show Build.unary .not term.ref tree = _ from made]
    dsimp only
    split
    · obtain ⟨_, _, wrapped, madeParen, wraps, outer, rfl, rfl⟩ :=
        @Build.paren_makes negated (some _) (builds.frame.stored program.stored) builds.stands
      rw [Change.lift_bind, show Build.paren place.ref negated = _ from madeParen]
      obtain ⟨after, put, places⟩ := put_built program within (builds.trans wraps)
      exact ⟨after, term, _, put, self_mem_subterms term, .wrap place outer, places⟩
    · obtain ⟨after, put, places⟩ := put_built program within builds
      exact ⟨after, term, _, put, self_mem_subterms term, .add place, places⟩

end QuantifierCall

namespace Quantifies

variable {quantifier : Quantifier} {term access argument lambda param body : Outline}
  {receiver : Option Outline} {conditional parenthesized : Bool}

/-- The predicate lies below the call, apart from the member that is called. -/
theorem lambda_below
    (quantifies : Quantifies quantifier term access argument lambda param receiver (some body)
    conditional parenthesized) (once : term.refs.Nodup) :
    access ∈ term.children ∧ lambda ∈ term.subterms ∧ term.ref ≠ lambda.ref ∧
    argument.ref ≠ lambda.ref ∧ access.refs.Disjoint lambda.refs := by
  have children : term.children = [access, argument] := by
    simp [Term.children, quantifies.form, Term.parts]
  have accessChild : access ∈ term.children := by simp [children]
  have argumentChild : argument ∈ term.children := by simp [children]
  have lambdaChild : lambda ∈ argument.children := by
    simp [Term.children, quantifies.formArgument, Term.parts]
  have lambdaBelow := child_mem_subterms lambdaChild
  refine ⟨accessChild, subterms_trans (child_mem_subterms argumentChild) lambdaBelow, fun same =>
    ?_, fun same => ?_, ?_⟩
  · refine ref_not_mem_innerRefs once (mem_innerRefs.2 ⟨argument, argumentChild, ?_⟩)
    exact same ▸ refs_subset lambdaBelow (ref_mem_refs lambda)
  · refine ref_not_mem_innerRefs (once.sublist (refs_sublist (child_mem_subterms argumentChild))) ?_
    exact mem_innerRefs.2 ⟨lambda, lambdaChild, same ▸ ref_mem_refs lambda⟩
  · rw [refs_eq, innerRefs, children] at once
    have apart := (List.nodup_flatMap.1 (List.nodup_cons.1 once).2).2
    exact List.disjoint_of_subset_right (refs_subset lambdaBelow) (by simpa using apart)

/-- With its predicate negated and its member renamed, the call is one of the other quantifier. -/
theorem dualizes
    (quantifies : Quantifies quantifier term access argument lambda param receiver (some body)
    conditional parenthesized) {body' : Option Outline} (negates : Negates body body')
    (once : term.refs.Nodup) (onceNegated : (Term.swap lambda.ref
      (.node lambda.note (.lambda [param] body' parenthesized)) term).refs.Nodup) :
    Dualizes quantifier receiver term <|
      Term.swap access.ref (.node access.note (.member receiver quantifier.dual.method conditional))
        (Term.swap lambda.ref (.node lambda.note (.lambda [param] body' parenthesized)) term) := by
  set predicate : Outline := .node lambda.note (.lambda [param] body' parenthesized)
  set renamed : Outline := .node access.note (.member receiver quantifier.dual.method conditional)
  obtain ⟨-, -, termApart, argumentApart, apart⟩ := quantifies.lambda_below once
  have accessSame : Term.swap lambda.ref predicate access = access :=
    swap_of_not_mem fun inside => apart inside (ref_mem_refs lambda)
  have form : (Term.swap lambda.ref predicate term).kind =
      .invoke (some access) [Term.swap lambda.ref predicate argument] := by
    rw [kind_swap_of_ne termApart, quantifies.form]
    simp [mapChildren, accessSame]
  have children : (Term.swap lambda.ref predicate term).children =
      [access, Term.swap lambda.ref predicate argument] := by simp [Term.children, form, Term.parts]
  have accessBelow : (Term.swap lambda.ref predicate term).ref ≠ access.ref := fun same =>
    ref_not_mem_innerRefs onceNegated
      (mem_innerRefs.2 ⟨access, by simp [children], same ▸ ref_mem_refs access⟩)
  have argumentSame : Term.swap access.ref renamed (Term.swap lambda.ref predicate argument) =
      Term.swap lambda.ref predicate argument := by
    refine swap_of_not_mem fun inside => ?_
    have once := onceNegated
    rw [refs_eq, innerRefs, children] at once
    have apart := (List.nodup_flatMap.1 (List.nodup_cons.1 once).2).2
    simp only [List.pairwise_cons, List.mem_singleton, forall_eq] at apart
    exact apart.1 (ref_mem_refs access) inside
  have after : Quantifies quantifier.dual
      (Term.swap access.ref renamed (Term.swap lambda.ref predicate term)) renamed
      (Term.swap lambda.ref predicate argument) predicate param receiver body' conditional
      parenthesized := by
    refine ⟨?_, rfl, ?_, rfl⟩
    · rw [kind_swap_of_ne accessBelow, form]
      simp [mapChildren, swap_self, argumentSame]
    · rw [kind_swap_of_ne argumentApart, quantifies.formArgument]
      simp [mapChildren, swap_self]
  exact .intro
    ((ref_swap_node access _ _).trans (ref_swap_node lambda _ _)) quantifies after negates

variable {tree : Tree} {whole : Outline}

/-- The body of the predicate is negated in a program. -/
theorem negatePredicate
    (quantifies : Quantifies quantifier term access argument lambda param receiver (some body)
      conditional parenthesized) (program : tree.IsProgram whole)
      (lambdaWithin : lambda ∈ whole.subterms)
    (negatable : tree.isNegatable body.ref) :
    ∃ range body' negated after, tree.kind lambda.ref = .lambda range body.ref parenthesized ∧
      QuantifierCall.negated body.ref tree = .ok (refOf body', negated) ∧
      Tree.setKind lambda.ref (.lambda range (refOf body') parenthesized) negated = ((), after) ∧
      Negates body body' ∧ tree.Leaves after whole lambda ∧ after.IsProgram
      (Term.swap lambda.ref (.node lambda.note (.lambda [param] body' parenthesized)) whole) := by
  have standsLambda := program.stands.subterm lambdaWithin
  have lambdaChildren : lambda.children = [param] ++ [body] := by
    simp [Term.children, quantifies.formLambda, Term.parts]
  have standsParts := standsLambda.children.1
  rw [lambdaChildren] at standsParts
  have inLambda {ref : Ref}
      (inside : ref ∈ body.refs ∨ ref ∈ param.refs) : ref ∈ lambda.innerRefs := by
    rw [innerRefs, lambdaChildren]
    simpa using inside.symm
  obtain ⟨body', negated, madeBody, builds, negates⟩ :=
    QuantifierCall.negated_builds negatable program.stored (standsParts.each body (by simp))
  have depicts := standsLambda.shown.here.depicts
  rw [quantifies.formLambda] at depicts
  obtain ⟨range, isKind, holds⟩ := depicts.of_lambda
  have standsNegated :=
    (builds.apart (standsParts.perm List.perm_append_comm)).perm List.perm_append_comm
  have holdsBody : negated.Holds (.one (refOf body')) (.one body') := standsNegated.holds (by simp)
  obtain ⟨after, setLambda, -, reshapes⟩ := @Stands.setKind _ _ tree negated whole lambda
    (.lambda range (refOf body') parenthesized)
    (.lambda [param] body' parenthesized) program.stands builds.frame
    (builds.frame.stored program.stored) lambdaWithin (by simp)
    (fun ref _ isMoved => inLambda (.inl (by simpa using isMoved)))
    ⟨.cons (holds.of_frame builds.frame) (.cons holdsBody .nil), rfl⟩
    (by simpa [Term.parts] using standsNegated) (fun ref inside inWhole => by
      have inside : ref ∈ param.refs ∨ ref ∈ body'.toList.flatMap refs := by
        simpa [Term.parts] using inside
      refine inLambda (inside.symm.imp_left fun made => ?_)
      simpa using builds.origin ref made (program.stands.hasRef inWhole))
  exact ⟨range, body', negated, after, isKind, madeBody, setLambda, negates,
    reshapes.leaves program.stands, program.reshape lambdaWithin reshapes⟩

end Quantifies

/-- A member of a program gets another name. -/
theorem Tree.IsProgram.renameMember {tree : Tree} {whole access : Outline}
    {receiver : Option Outline} {name : String}
    {conditional : Bool} (program : tree.IsProgram whole) (within : access ∈ whole.subterms)
    (form : access.kind = .member receiver name conditional) (new : String) :
    ∃ after, Tree.setKind access.ref (.member (refOf receiver) new conditional) tree = ((), after) ∧
      tree.Leaves after whole access ∧ after.IsProgram
        (Term.swap access.ref (.node access.note (.member receiver new conditional)) whole) := by
  have parts : Term.parts (.member receiver new conditional) = access.children := by
    simp [Term.children, form, Term.parts]
  have standsReceiver := (program.stands.subterm within).children.1
  rw [← parts] at standsReceiver
  have holdsReceiver : tree.Holds (.one (refOf receiver)) (.one receiver) :=
    standsReceiver.holds (by simp [Term.parts])
  obtain ⟨after, set, -, reshapes⟩ := @Stands.setKind [] [] tree tree whole access
    (.member (refOf receiver) new conditional) (.member receiver new conditional) program.stands
    (.refl _)
    program.stored within (by simp) (by simp) ⟨.cons holdsReceiver .nil, rfl⟩ standsReceiver
    (fun ref inside _ => by rwa [parts] at inside)
  exact ⟨after, set, reshapes.leaves program.stands, program.reshape within reshapes⟩

/-- The call of a quantifier in a program becomes one of the other quantifier, with its predicate
negated. -/
theorem Quantifies.dualize {tree : Tree} {quantifier : Quantifier}
    {whole term access argument lambda param body : Outline} {receiver : Option Outline}
    {conditional parenthesized : Bool} (program : tree.IsProgram whole)
    (within : term ∈ whole.subterms)
    (quantifies : Quantifies quantifier term access argument lambda param receiver
      (some body) conditional parenthesized)
    (negatable : tree.isNegatable body.ref) :
    ∃ range body' negated predicated renamed dual, tree.kind lambda.ref =
    .lambda range body.ref parenthesized ∧
      QuantifierCall.negated body.ref tree = .ok (refOf body', negated) ∧
      Tree.setKind lambda.ref (.lambda range (refOf body') parenthesized) negated
        = ((), predicated) ∧ Tree.setKind access.ref
      (.member (refOf receiver) quantifier.dual.method conditional) predicated = ((), renamed) ∧
      tree.Leaves renamed whole term ∧ renamed.IsProgram (Term.swap term.ref dual whole) ∧
      dual.ref = term.ref ∧ Dualizes quantifier receiver term dual := by
  have once := (program.stands.subterm within).once
  obtain ⟨accessChild, lambdaBelow, -, -, apart⟩ := quantifies.lambda_below once
  obtain ⟨range, body', negated, predicated, isLambda, madeBody, setLambda, negates,
    leavesPredicate, isPredicated⟩ :=
    quantifies.negatePredicate program (subterms_trans within lambdaBelow) negatable
  set predicate : Outline := .node lambda.note (.lambda [param] body' parenthesized)
  set changed := Term.swap lambda.ref predicate term
  have sameChanged : changed.ref = term.ref := ref_swap_node lambda term _
  have changedWithin : changed ∈ (Term.swap lambda.ref predicate whole).subterms :=
    swap_mem_subterms program.stands.once within lambdaBelow
  have accessBelow : access ∈ changed.subterms :=
    mem_subterms_swap_of_disjoint once (child_mem_subterms accessChild) lambdaBelow apart
  obtain ⟨renamed, setAccess, leavesAccess, isRenamed⟩ :=
    isPredicated.renameMember (subterms_trans changedWithin accessBelow)
    quantifies.formAccess quantifier.dual.method
  have dualizes := quantifies.dualizes negates once (isPredicated.stands.subterm changedWithin).once
  set dual := Term.swap access.ref
    (.node access.note (.member receiver quantifier.dual.method conditional)) changed
  -- Both changes lie below the call.
  have swapped :
      Term.swap access.ref (.node access.note (.member receiver quantifier.dual.method conditional))
        (Term.swap lambda.ref predicate whole) = Term.swap term.ref dual whole := by
    rw [swap_within isPredicated.stands.once changedWithin accessBelow, sameChanged,
      swap_within program.stands.once within lambdaBelow,
      swap_swap program.stands.once within (self_mem_subterms term) sameChanged]
  rw [swapped] at isRenamed
  have leaves :=
    leavesPredicate.trans program.stands.once leavesAccess (subterms_trans within lambdaBelow)
      (refs_subset lambdaBelow) fun ref _ inside =>
    refs_subset (child_mem_subterms accessChild) inside
  exact ⟨range, body', negated, predicated, renamed, dual, isLambda, madeBody, setLambda, setAccess,
    leaves, isRenamed, (ref_swap_node access changed _).trans sameChanged, dualizes⟩

/-- To invert a quantifier call in a program is to negate its dual. -/
theorem Quantifies.invert_eq {tree : Tree} {call : QuantifierCall}
    {whole term access argument lambda param body : Outline} {receiver : Option Outline}
    {conditional parenthesized : Bool} (program : tree.IsProgram whole)
    (within : term ∈ whole.subterms)
    (quantifies : Quantifies call.quantifier term access argument lambda param receiver
      (some body) conditional parenthesized)
    (isCall : call.call = term.ref) (negatable : tree.isNegatable body.ref)
    (isCalled : tree.calledMember? term.ref =
      some ⟨access.ref, refOf receiver, call.quantifier.method, conditional⟩)
    (isPassed : tree.singleArgument? term.ref = some lambda.ref) :
    ∃ renamed dual, call.invert tree = QuantifierCall.negateCall dual.ref renamed ∧
      tree.Leaves renamed whole term ∧ renamed.IsProgram (Term.swap term.ref dual whole) ∧
      dual.ref = term.ref ∧ Dualizes call.quantifier receiver term dual := by
  obtain ⟨range, body', negated, predicated, renamed, dual, isLambda, madeBody, setLambda,
    setAccess, leaves, isRenamed, sameDual, dualizes⟩ := quantifies.dualize program within negatable
  refine ⟨renamed, dual, ?_, leaves, isRenamed, sameDual, dualizes⟩
  rw [QuantifierCall.invert, Change.get_bind, isCall, isCalled, Change.require_bind, isPassed,
    Change.require_bind]
  simp only [isLambda]
  rw [Change.bind_of_ok madeBody, Change.lift_bind, setLambda, Change.lift_bind, setAccess,
    sameDual]

/-- A call of a quantifier in a program was changed into a call of the other one, and then what
negates it came in its place or in that of its negation. Nothing else was changed. -/
structure InvertsIn (before after : Tree) (quantifier : Quantifier) (receiver : Option Outline)
    (whole term middle target new :
    Outline) : Prop where
  /-- The call is a part of the program. -/
  within : term ∈ whole.subterms
  /-- It becomes its dual. -/
  dualizes : ∃ dual, Dualizes quantifier receiver term dual ∧
    middle = Term.swap term.ref dual whole ∧
    dual ∈ target.subterms ∧ NegatesCall dual target new
  /-- The dual is negated, and only the dual and what is put in a place are changed. -/
  places : ∃ changed, before.Leaves changed whole term ∧ changed.IsProgram middle ∧
    changed.Places after middle target new

/-- Inverting a quantifier call in a program gives a program in which it is inverted. -/
theorem Quantifies.invert {tree : Tree} {call : QuantifierCall}
    {whole term access argument lambda param body : Outline} {receiver : Option Outline}
    {conditional parenthesized : Bool} (program : tree.IsProgram whole)
    (within : term ∈ whole.subterms)
    (quantifies : Quantifies call.quantifier term access argument lambda param receiver
      (some body) conditional parenthesized)
    (isCall : call.call = term.ref) (negatable : tree.isNegatable body.ref)
    (isCalled : tree.calledMember? term.ref =
      some ⟨access.ref, refOf receiver, call.quantifier.method, conditional⟩)
    (isPassed : tree.singleArgument? term.ref = some lambda.ref) :
    ∃ after middle target new, call.invert tree = .ok ((), after) ∧
      InvertsIn tree after call.quantifier receiver whole term middle target new := by
  obtain ⟨renamed, dual, inverted, leaves, isRenamed, -, dualizes⟩ :=
    quantifies.invert_eq program within isCall negatable isCalled isPassed
  obtain ⟨after, target, new, negatedCall, below, negatesCall, places⟩ :=
    QuantifierCall.negateCall_isProgram isRenamed (mem_subterms_swap program.stands.once within)
  exact ⟨after, _, target, new, inverted.trans negatedCall, within,
    ⟨dual, dualizes, rfl, below, negatesCall⟩, renamed, leaves, isRenamed, places⟩

/-- A call that is inverted in a program is inverted. -/
theorem InvertsIn.inverts {before after : Tree} {quantifier : Quantifier}
    {receiver : Option Outline}
    {whole term middle target new : Outline}
    (inverts : InvertsIn before after quantifier receiver whole term middle target new) :
    after.IsProgram (Term.swap target.ref new middle) ∧
      Inverts quantifier receiver whole term (Term.swap target.ref new middle) := by
  obtain ⟨within, ⟨dual, dualizes, rfl, below, negates⟩, changed, -, program, places⟩ := inverts
  exact ⟨places.program, .intro within dualizes program.stands.once places.within below negates⟩

/-- Inverting a quantifier around a node of a program gives a program in which the first one that
can be inverted is inverted, where it is offered. -/
theorem Context.invertQuantifier_offers {context : Context} {whole : Outline} {ref : Ref}
    (program : context.tree.IsProgram whole) (member : ref ∈ whole.refs) :
    Attempt.Gives (context.invertQuantifier ref)
    (Offers fun result => ∃ call receiver term middle target new, (context.tree.descendants
        (context.tree.statementOf ref)).findSome? context.tree.quantifierCall? = some call ∧
      call.call = term.ref ∧ term.ref ∈ context.tree.descendants (context.tree.statementOf ref) ∧
      InvertsIn context.tree result call.quantifier receiver whole term middle target new) := by
  rw [invertQuantifier]
  split
  · exact Attempt.refuse_offers _
  · rename_i call found
    obtain ⟨target, isBelow, isFound⟩ := List.exists_of_findSome?_eq_some found
    obtain ⟨term, within, rfl⟩ :=
      mem_refs.1 (program.descendants_subset (program.statementOf_mem member) isBelow)
    obtain ⟨access, argument, lambda, param, receiver,
      body, conditional, parenthesized, quantifies, isCall, negatable, isCalled, isPassed⟩ :=
      exists_quantifies (program.stands.subterm within).shown isFound
    obtain ⟨after, middle, target, new, inverted, inverts⟩ :=
      quantifies.invert program within isCall negatable isCalled isPassed
    exact offer_offers
      ⟨after, inverted, call, receiver, term, middle, target, new, found, isCall, isBelow, inverts⟩

/-- Inverting a quantifier around a node of a program gives a program where it is offered. -/
theorem Context.invertQuantifier_gives {context : Context} {whole : Outline} {ref : Ref}
    (program : context.tree.IsProgram whole) (member : ref ∈ whole.refs) :
    Attempt.Gives (context.invertQuantifier ref) OffersProgram := by
  refine (invertQuantifier_offers program member).mono fun offered offers action isOffered => ?_
  obtain ⟨_, _, _, _, _, _, -, -, -, inverts⟩ := offers action isOffered
  exact ⟨_, inverts.inverts.1⟩

end Refactory
