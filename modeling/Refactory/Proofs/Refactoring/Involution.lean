import Refactory.Proofs.Refactoring.Preservation
import Refactory.Proofs.Refactoring.Runs

/-!
# Inverting quantifiers twice

Inverting a quantifier twice gives the code that was there before
(`Context.invertQuantifier_twice`). A call that becomes its dual twice has its shape back
(`Dualizes.shape_eq`), and a negation that was put around a call or taken from it is taken away or
put back (`QuantifierCall.negateCall_adds`, `QuantifierCall.negateCall_takes`). The second time the
same call is found first: no other part of the statement becomes or stops being a quantifier call
that can be inverted, since neither a call nor its negation keeps a predicate from being negated
(`Invertible.of_swap`). A call does not come back where its negation is accessed without parentheses
or negated once more (`Context.invertQuantifier_twice_changes`).
-/
namespace Refactory

open Term Refactory.Tree

namespace Kind

variable {one many one' many' : Type}

/-- Whether the body of a predicate of the kind can be negated without growing. -/
def isNegatable : Kind one many → Bool
  | unary op _ => op == .not
  | binary op _ _ => op.isComparison
  | ident _ | member _ _ _ | invoke _ _ => true
  | _ => false

theorem isNegatable_of_skeleton {kind : Kind one many} {other : Kind one' many'}
    (same : kind.skeleton = other.skeleton) : kind.isNegatable = other.isNegatable :=
  eq_of_skeleton (fun kind => kind.isNegatable) (fun kind => by cases kind <;> rfl) same

/-- Whether the kind is that of a call or of a negation. -/
def isCallOrNegation : Kind one many → Bool
  | invoke _ _ | unary .not _ => true
  | _ => false

/-- What is a call or a negation can be negated. -/
theorem isNegatable_of_isCallOrNegation {kind : Kind one many} (is : kind.isCallOrNegation) :
    kind.isNegatable := by
  cases kind with
  | invoke => rfl
  | unary op operand => cases op <;> first | rfl | cases is
  | _ => cases is

/-- No statement is a call or a negation. -/
theorem isStatement_of_isCallOrNegation {kind : Kind one many} (is : kind.isCallOrNegation) :
    kind.isStatement = false := by
  cases kind with
  | invoke => rfl
  | unary => rfl
  | _ => cases is

/-- What a member or an element access is made to, and what a call calls. -/
def accessed? : Kind one many → Option one
  | member receiver _ _ | index receiver _ => some receiver
  | invoke callee _ => some callee
  | _ => none

end Kind

namespace Tree

/-- The negation of an expression, maybe with parentheses between. -/
def negation? (tree : Tree) (ref : Ref) : Option Ref :=
  let above := tree.parent (tree.aroundParens ref (tree.ancestors ref))
  if tree.isNegation above then some above else none

/-- Whether the body of a predicate is a comparison or a reading, or a negation that is applied to a
reading. -/
def isPlainPredicate (tree : Tree) (body : Ref) : Bool :=
  match tree.kind body with
  | .binary op _ _ => op.isComparison
  | .unary .not operand => (tree.kind operand).isReading
  | kind => kind.isReading

end Tree

/-- A call of a quantifier whose predicate can be negated. -/
def Invertible (term : Outline) : Prop :=
  ∃ quantifier access argument lambda param type name receiver body conditional parenthesized,
    Quantifies quantifier term access argument lambda param receiver
      (some body) conditional parenthesized ∧ param.kind = .param type name ∧ body.kind.isNegatable

/-- A predicate that is a comparison, a reading, or the negation of a reading. -/
inductive IsPlainPredicate (body : Outline) : Prop
  /-- A comparison. -/
  | comparison {op : BinaryOp} {left right : Option Outline}
      (form : body.kind = .binary op left right)
      (compares : op.isComparison)
  /-- A reading. -/
  | reading (reads : body.kind.isReading)
  /-- The negation of a reading. -/
  | negation {operand : Outline} (form : body.kind = .unary .not (some operand))
    (reads : operand.kind.isReading)

/-- A call of a quantifier over a receiver with a plain predicate. -/
def QuantifiesPlainly (quantifier : Quantifier) (receiver : Option Outline)
    (term : Outline) : Prop :=
  ∃ access argument lambda param type name body conditional parenthesized,
    Quantifies quantifier term access argument lambda param receiver
      (some body) conditional parenthesized ∧ param.kind = .param type name ∧ IsPlainPredicate body

/-- A part of a term that a negation can be put around: there is none around it yet, and the part is
neither accessed nor called. -/
structure TakesNegation (whole part : Outline) : Prop where
  /-- No negation is around the part, with parentheses alone between. -/
  unnegated : ∀ around ∈ whole.subterms, Wraps part around → ∀ above ∈ whole.subterms,
    above.kind ≠ .unary .not (some around)
  /-- The part is neither accessed nor called. -/
  unaccessed : ∀ holder ∈ whole.subterms, holder.kind.accessed? ≠ some (some part)

section Predicates

/-- A plain predicate can be negated. -/
theorem IsPlainPredicate.isNegatable {body : Outline} (isPlain : IsPlainPredicate body) :
    body.kind.isNegatable := by
  cases isPlain with
  | comparison form compares => rw [form]; exact compares
  | reading reads =>
    generalize body.kind = kind at reads
    cases kind <;> first | rfl | cases reads
  | negation form reads => rw [form]; rfl

/-- The negation of a plain predicate is plain, and its negation is the predicate. -/
theorem Negates.again {body : Outline} {new : Option Outline} (negates : Negates body new)
    (isPlain : IsPlainPredicate body) : ∃ negated, new = some negated ∧ IsPlainPredicate negated ∧
      ∀ again, Negates negated again → again.map Term.shape = some body.shape := by
  rcases body with ⟨note, kind⟩
  cases isPlain with
  | @comparison op left right form compares =>
    obtain rfl : kind = .binary op left right := form
    cases negates with
    | drop form => cases form
    | unwrap form => cases form
    | add place reading => cases reading
    | @compare op opposite left right place form opposed =>
      cases form
      have restored : opposite.negated? = some op := BinaryOp.negated?_negated? opposed
      refine ⟨_, rfl, .comparison rfl (by rw [BinaryOp.isComparison, restored]; rfl),
        fun again negates => ?_⟩
      cases negates with
      | drop form => cases form
      | unwrap form => cases form
      | add place reading => cases reading
      | compare place form opposed =>
        cases form
        rw [restored] at opposed
        cases opposed
        simp
  | reading reads =>
    cases negates with
    | drop form =>
      obtain rfl : kind = _ := form
      cases reads
    | unwrap form =>
      obtain rfl : kind = _ := form
      cases reads
    | compare place form =>
      obtain rfl : kind = _ := form
      cases reads
    | add place =>
      refine ⟨_, rfl, .negation rfl reads, fun again negates => ?_⟩
      cases negates with
      | drop form =>
        cases form
        rfl
      | unwrap form formWrapped =>
        cases form
        obtain rfl : kind = _ := formWrapped
        cases reads
      | compare place form => cases form
      | add place reading => cases reading
  | @negation operand form reads =>
    obtain rfl : kind = .unary .not (some operand) := form
    cases negates with
    | compare place form => cases form
    | add place reading => cases reading
    | unwrap form formWrapped =>
      cases form
      rw [formWrapped] at reads
      cases reads
    | drop form =>
      cases form
      refine ⟨_, rfl, .reading reads, fun again negates => ?_⟩
      cases negates with
      | add place reading => simp
      | drop form =>
        rw [form] at reads
        cases reads
      | unwrap form =>
        rw [form] at reads
        cases reads
      | compare place form =>
        rw [form] at reads
        cases reads

end Predicates

namespace Quantifies

variable {quantifier : Quantifier} {term access argument lambda param : Outline}
  {receiver body : Option Outline} {conditional parenthesized : Bool}

/-- The parts of a call are those of the term. -/
theorem parts_eq {other : Quantifier} {access' argument' lambda' param' : Outline}
    {receiver' body' : Option Outline}
    {conditional' parenthesized' : Bool}
    (quantifies : Quantifies quantifier term access argument lambda param receiver body conditional
      parenthesized)
    (again : Quantifies other term access' argument' lambda' param' receiver' body' conditional'
      parenthesized') :
    lambda = lambda' ∧ param = param' ∧ receiver = receiver' ∧ body = body' ∧
    conditional = conditional' ∧ parenthesized = parenthesized' := by
  obtain ⟨form, formAccess, formArgument, formLambda⟩ := quantifies
  obtain ⟨form', formAccess', formArgument', formLambda'⟩ := again
  cases form.symm.trans form'
  obtain ⟨rfl, -, rfl⟩ := Kind.member.inj (formAccess.symm.trans formAccess')
  cases formArgument.symm.trans formArgument'
  cases formLambda.symm.trans formLambda'
  exact ⟨rfl, rfl, rfl, rfl, rfl, rfl⟩

/-- The shape of a call. -/
theorem shape_eq
    (quantifies : Quantifies quantifier term access argument lambda param receiver body conditional
    parenthesized) : term.shape = .node () (.invoke
      (some (.node () (.member (receiver.map Term.shape) quantifier.method conditional)))
      [.node () (.argument .plain
        (some (.node () (.lambda [param.shape] (body.map Term.shape) parenthesized))))]) := by
  obtain ⟨form, formAccess, formArgument, formLambda⟩ := quantifies
  rcases term with ⟨note, kind⟩
  rcases access with ⟨noteAccess, kindAccess⟩
  rcases argument with ⟨noteArgument, kindArgument⟩
  rcases lambda with ⟨noteLambda, kindLambda⟩
  obtain rfl : kind = _ := form
  obtain rfl : kindAccess = _ := formAccess
  obtain rfl : kindArgument = _ := formArgument
  obtain rfl : kindLambda = _ := formLambda
  simp

end Quantifies

/-- A call with a plain predicate becomes one when its predicate is negated, and has its shape again
when that is negated too. -/
theorem Dualizes.again {quantifier : Quantifier} {receiver : Option Outline} {term dual : Outline}
    (dualizes : Dualizes quantifier receiver term dual)
    (isPlain : QuantifiesPlainly quantifier receiver term) :
    QuantifiesPlainly quantifier.dual receiver dual ∧
      ∀ again, Dualizes quantifier.dual receiver dual again → again.shape = term.shape := by
  obtain ⟨access, argument, lambda, param, type, name, body, conditional, parenthesized, quantifies,
    isParam, isPlain⟩ := isPlain
  obtain ⟨-, before, after, negates⟩ := dualizes
  obtain ⟨rfl, rfl, -, isBody, rfl, rfl⟩ := quantifies.parts_eq before
  cases isBody
  obtain ⟨negated, rfl, isPlainNegated, restores⟩ := negates.again isPlain
  refine ⟨⟨_, _, _, _, _, _, _, _, _, after, isParam, isPlainNegated⟩,
    fun again dualizesAgain => ?_⟩
  obtain ⟨-, beforeAgain, afterAgain, negatesAgain⟩ := dualizesAgain
  obtain ⟨rfl, rfl, -, isBody, rfl, rfl⟩ := after.parts_eq beforeAgain
  cases isBody
  rw [afterAgain.shape_eq, quantifies.shape_eq, restores _ negatesAgain, Quantifier.dual_dual]
  rfl

/-- A call with a plain predicate is a call. -/
theorem QuantifiesPlainly.isCallOrNegation {quantifier : Quantifier} {receiver : Option Outline}
    {term : Outline}
    (isPlain : QuantifiesPlainly quantifier receiver term) : term.kind.isCallOrNegation := by
  obtain ⟨_, _, _, _, _, _, _, _, _, quantifies, -⟩ := isPlain
  rw [quantifies.form]
  rfl

/-- What gets the place of a part holds no negation around it, if the part did not. -/
theorem TakesNegation.swap {whole part new : Outline} (takes : TakesNegation whole part)
    (once : whole.refs.Nodup)
    (within : part ∈ whole.subterms) (onceAfter : (Term.swap part.ref new whole).refs.Nodup) :
    TakesNegation (Term.swap part.ref new whole) new := by
  have isNew := @mem_subterms_swap new _ _ once within
  have restored : Term.swap new.ref part (Term.swap part.ref new whole) = whole := by
    rw [swap_swap_self once within onceAfter, swap_eq_self once within]
  -- What is around the new part is what was around the old one.
  have around {outer : Outline} (inside : outer ∈ (Term.swap part.ref new whole).subterms)
      (below : new ∈ outer.subterms) :
      Term.swap new.ref part outer ∈ whole.subterms := by
    have within := @swap_mem_subterms part _ _ onceAfter _ inside below
    rwa [restored] at within
  have wraps {outer : Outline} (wraps : Wraps new outer) (once : outer.refs.Nodup) :
      Wraps part (Term.swap new.ref part outer) := by
    induction wraps with
    | bare =>
      rw [swap_self]
      exact .bare
    | @paren inner outer form wraps ih =>
      have held : inner ∈ outer.children := by simp [Term.children, form, Term.parts]
      refine .paren ?_ (ih (once.sublist (refs_sublist (child_mem_subterms held))))
      rw [kind_swap_of_ne (ref_ne_of_child once held wraps.mem_subterms), form]
      rfl
  have holds {holder inner : Outline} (inside : holder ∈ (Term.swap part.ref new whole).subterms)
      (held : inner ∈ holder.children) (below : new ∈ inner.subterms) : holder.ref ≠ new.ref :=
    ref_ne_of_child (onceAfter.sublist (refs_sublist inside)) held below
  refine ⟨fun outer inside isWrapped above isAbove form => ?_, fun holder inside accessed => ?_⟩
  · have held : outer ∈ above.children := by simp [Term.children, form, Term.parts]
    have onceOuter := onceAfter.sublist (refs_sublist inside)
    refine takes.unnegated _ (around inside isWrapped.mem_subterms) (wraps isWrapped onceOuter)
      (Term.swap new.ref part above)
      (around isAbove (mem_subterms_of_child held isWrapped.mem_subterms)) ?_
    rw [kind_swap_of_ne (holds isAbove held isWrapped.mem_subterms), form]
    rfl
  · have held : new ∈ holder.children := by
      rw [Term.children]
      generalize holder.kind = kind at accessed
      cases kind <;> simp_all [Kind.accessed?, Term.parts]
    refine takes.unaccessed (Term.swap new.ref part holder)
      (around inside (child_mem_subterms held)) ?_
    rw [kind_swap_of_ne (holds inside held (self_mem_subterms new))]
    generalize holder.kind = kind at accessed
    cases kind <;> cases accessed <;> simp [Kind.accessed?, mapChildren, swap_self]

namespace Tree

variable {tree : Tree} {whole container part term around above : Outline}

/-- Whether a predicate can be negated is seen from the kind of its body. -/
theorem isNegatable_eq (ref : Ref) : tree.isNegatable ref = (tree.kind ref).isNegatable := by
  rw [isNegatable]
  cases tree.kind ref <;> rfl

/-- The quantifier call found at a node is at the node. -/
theorem call_of_quantifierCall? {ref : Ref} {call : QuantifierCall}
    (found : tree.quantifierCall? ref = some call) :
    call.call = ref := by
  simp only [quantifierCall?, Option.bind_eq_bind, Option.bind_eq_some_iff, Option.pure_def,
    Option.some.injEq] at found
  obtain ⟨-, -, -, -, -, -, -, -, -, -, rfl⟩ := found
  rfl

/-- A call with a predicate that can be negated is found to be a quantifier call. -/
theorem quantifierCall?_of_form {quantifier : Quantifier}
    {access argument lambda param body : Outline} {receiver type : Option Outline} {name : String}
    {conditional parenthesized : Bool} (shown : term.All tree.Shows)
    (quantifies : Quantifies quantifier term access argument lambda param receiver
      (some body) conditional parenthesized)
    (isParam : param.kind = .param type name) (negatable : body.kind.isNegatable) :
    tree.quantifierCall? term.ref = some ⟨term.ref, quantifier⟩ := by
  obtain ⟨form, formAccess, formArgument, formLambda⟩ := quantifies
  have argumentChild : argument ∈ term.children := by simp [Term.children, form, Term.parts]
  have lambdaChild : lambda ∈ argument.children := by simp [Term.children, formArgument, Term.parts]
  have bodyChild : body ∈ lambda.children := by simp [Term.children, formLambda, Term.parts]
  have shownLambda := (shown.child argumentChild).child lambdaChild
  have noBlock : ∀ statements, body.kind ≠ .block statements := fun statements isBlock => by
    rw [isBlock] at negatable
    cases negatable
  have isMethod : Quantifier.ofMethod? quantifier.method = some quantifier := by
    cases quantifier <;> decide
  have isNegatable : tree.isNegatable body.ref = true := by
    rw [isNegatable_eq,
      Kind.isNegatable_of_skeleton (shownLambda.child bodyChild).here.depicts.skeleton]
    exact negatable
  rw [quantifierCall?, calledMember?_of_form shown form formAccess,
    singleArgument?_of_passes shown ⟨_, _, form, formArgument⟩]
  simp only [Option.bind_eq_bind, Option.bind_some, isMethod, refOf_some,
    simpleLambda?_of_form shownLambda formLambda isParam noBlock, isNegatable, guard_true]
  rfl

/-- A quantifier call that is found has a predicate that can be negated. -/
theorem exists_parts_of_quantifierCall? {call : QuantifierCall} (shown : term.All tree.Shows)
    (found : tree.quantifierCall? term.ref = some call) :
    ∃ access argument lambda param type name receiver body conditional parenthesized,
      Quantifies call.quantifier term access argument lambda param receiver
        (some body) conditional parenthesized ∧ param.kind = .param type name ∧
          body.kind.isNegatable ∧ tree.singleArgument? term.ref = some lambda.ref ∧
          tree.simpleLambda? lambda.ref = some ⟨param.ref, name, body.ref, parenthesized⟩ := by
  obtain ⟨access, argument, lambda, param, receiver, body, conditional, parenthesized,
    quantifies, -, negatable, -, isPassed⟩ := exists_quantifies shown found
  have argumentChild : argument ∈ term.children := by
    simp [Term.children, quantifies.form, Term.parts]
  have lambdaChild : lambda ∈ argument.children := by
    simp [Term.children, quantifies.formArgument, Term.parts]
  have paramChild : param ∈ lambda.children := by
    simp [Term.children, quantifies.formLambda, Term.parts]
  have bodyChild : body ∈ lambda.children := by
    simp [Term.children, quantifies.formLambda, Term.parts]
  have shownLambda := (shown.child argumentChild).child lambdaChild
  rw [isNegatable_eq,
    Kind.isNegatable_of_skeleton (shownLambda.child bodyChild).here.depicts.skeleton] at negatable
  obtain ⟨type, name, isParam⟩ : ∃ type name, param.kind = .param type name := by
    simp only [quantifierCall?, Option.bind_eq_bind, Option.bind_eq_some_iff, isPassed] at found
    obtain ⟨-, -, -, -, passed, isPassed, simple, isLambda, -⟩ := found
    cases isPassed
    obtain ⟨param', body', type, formLambda, isParam, -, -⟩ :=
      simpleLambda?_eq_some shownLambda isLambda
    obtain ⟨same, -, -⟩ := Kind.lambda.inj (quantifies.formLambda.symm.trans formLambda)
    cases same
    obtain ⟨type, form, -⟩ := (isParam ▸ (shownLambda.child paramChild).here.depicts).param
    exact ⟨type, _, form⟩
  have noBlock : ∀ statements, body.kind ≠ .block statements := fun statements isBlock => by
    rw [isBlock] at negatable
    cases negatable
  exact ⟨access, argument, lambda, param, type, name, receiver, body, conditional, parenthesized,
    quantifies, isParam,
    negatable, isPassed, simpleLambda?_of_form shownLambda quantifies.formLambda isParam noBlock⟩

/-- A quantifier call is found where there is one whose predicate can be negated. -/
theorem exists_quantifierCall?_iff (shown : term.All tree.Shows) :
    (∃ call, tree.quantifierCall? term.ref = some call) ↔ Invertible term := by
  constructor
  · rintro ⟨call, found⟩
    obtain ⟨_, _, _, _, _, _, _, _, _, _, quantifies, isParam, negatable, -⟩ :=
      exists_parts_of_quantifierCall? shown found
    exact ⟨_, _, _, _, _, _, _, _, _, _, _, quantifies, isParam, negatable⟩
  · rintro ⟨_, _, _, _, _, _, _, _, _, _, _, quantifies, isParam, negatable⟩
    exact ⟨_, quantifierCall?_of_form shown quantifies isParam negatable⟩

/-- The body of a predicate that is found plain is plain. -/
theorem isPlainPredicate_of_shown {body : Outline} (shown : body.All tree.Shows)
    (isPlain : tree.isPlainPredicate body.ref) :
    IsPlainPredicate body := by
  have depicts := shown.here.depicts
  rw [isPlainPredicate] at isPlain
  split at isPlain
  · rename_i isBinary
    obtain ⟨left, right, form, -, -⟩ := (isBinary ▸ depicts).binary
    exact .comparison form isPlain
  · rename_i operand isUnary
    obtain ⟨operand, form, rfl⟩ := (isUnary ▸ depicts).unary
    cases operand with
    | none => cases isPlain
    | some operand =>
      have held : operand ∈ body.children := by simp [Term.children, form, Term.parts]
      refine .negation form ?_
      rwa
        [refOf_some, Kind.isReading_of_skeleton (shown.child held).here.depicts.skeleton] at isPlain
  · rw [Kind.isReading_of_skeleton depicts.skeleton] at isPlain
    exact .reading isPlain

namespace IsProgram

/-- Looking up from a part of a program through parentheses is looking up from what is around it. -/
theorem aroundParens_of_wraps (program : tree.IsProgram whole) (wraps : Wraps term around)
    (within : around ∈ whole.subterms) : tree.aroundParens term.ref (tree.ancestors term.ref) =
      tree.aroundParens around.ref (tree.ancestors around.ref) := by
  induction wraps with
  | bare => rfl
  | @paren inner outer form _ ih =>
    have held : inner ∈ outer.children := by simp [Term.children, form, Term.parts]
    have depicts := (program.stands.shows within).depicts
    rw [form] at depicts
    rw [ih (subterms_child within held), program.ancestors_child within held, aroundParens,
      depicts.of_paren]

/-- There are no parentheses around what is negated. -/
theorem aroundParens_of_negation (program : tree.IsProgram whole) (within : above ∈ whole.subterms)
    (form : above.kind = .unary .not (some part)) :
    tree.aroundParens part.ref (tree.ancestors part.ref) = part.ref := by
  have held : part ∈ above.children := by simp [Term.children, form, Term.parts]
  have depicts := (program.stands.shows within).depicts
  rw [form] at depicts
  rw [program.ancestors_child within held, aroundParens, depicts.of_unary]

/-- A negation around a part of a program is found. -/
theorem negation?_of_wraps (program : tree.IsProgram whole) (wraps : Wraps part around)
    (within : above ∈ whole.subterms)
    (form : above.kind = .unary .not (some around)) : tree.negation? part.ref = some above.ref := by
  have held : around ∈ above.children := by simp [Term.children, form, Term.parts]
  have isKind := (form ▸ (program.stands.shows within).depicts).of_unary
  have isNegation : tree.isNegation above.ref = true := by rw [isNegation, isKind]
  rw [negation?, program.aroundParens_of_wraps wraps (subterms_child within held),
    program.aroundParens_of_negation within form, program.stands.parent within held,
    if_pos isNegation]

/-- A negation that is found is a part of the program. -/
theorem mem_of_negation? {negation : Ref} (program : tree.IsProgram whole)
    (within : part ∈ whole.subterms) (found : tree.negation? part.ref = some negation) :
    ∃ above ∈ whole.subterms, above.ref = negation := by
  obtain ⟨around, isAround, same, -⟩ := program.exists_aroundParens within tree.depthBound
  rw [negation?, ancestors, same] at found
  split at found
  · rename_i isNegation
    rcases program.parent_cases isAround with ⟨-, top⟩ | ⟨above, inside, -, up⟩
    · rw [top] at isNegation
      cases isNegation
    · exact ⟨above, inside, up.symm.trans (Option.some.inj found)⟩
  · cases found

/-- A negation of a part of a program needs no parentheses where the part is neither accessed nor
called. -/
theorem needsParensNegated_iff (program : tree.IsProgram whole) (within : part ∈ whole.subterms) :
    tree.needsParensNegated part.ref = true ↔
    ∃ holder ∈ whole.subterms, holder.kind.accessed? = some (some part) := by
  have held {holder : Outline}
      (accessed : holder.kind.accessed? = some (some part)) : part ∈ holder.children := by
    rw [Term.children]
    generalize holder.kind = kind at accessed
    cases kind <;> simp_all [Kind.accessed?, Term.parts]
  have atHolder {holder : Outline} (inside : holder ∈ whole.subterms)
      (isHolder : part ∈ holder.children) :
      tree.needsParensNegated part.ref = true ↔ holder.kind.accessed? = some (some part) := by
    obtain ⟨number, -, place⟩ := program.stands.hasRef (mem_refs.2 ⟨holder, inside, rfl⟩)
    obtain ⟨_, -, present⟩ := program.stands.hasRef (mem_refs.2 ⟨part, within, rfl⟩)
    have isPart {child : Option Outline} (among : ∀ term ∈ child, term ∈ holder.children) :
        (refOf child == part.ref) = true ↔ child = some part := by
      rw [beq_iff_eq]
      refine ⟨fun same => ?_, fun same => same ▸ rfl⟩
      cases child with
      | none => cases same.trans present
      | some term =>
        exact congrArg some (subterm_unique program.stands.once
          (subterms_child inside (among term rfl)) within same)
    have depicts := (program.stands.shows inside).depicts
    rw [place] at depicts
    rw [needsParensNegated, program.stands.parent inside isHolder, place]
    dsimp only
    generalize tree.kind (some number) = kind at depicts
    cases kind
    case member =>
      obtain ⟨receiver, form, rfl⟩ := depicts.member
      simpa [form, Kind.accessed?] using isPart (by simp [Term.children, form, Term.parts])
    case index =>
      obtain ⟨receiver, arguments, form, rfl, -⟩ := depicts.index
      simpa [form, Kind.accessed?]
        using isPart (by simp +contextual [Term.children, form, Term.parts])
    case invoke =>
      obtain ⟨callee, arguments, form, rfl, -⟩ := depicts.invoke
      simpa [form, Kind.accessed?]
        using isPart (by simp +contextual [Term.children, form, Term.parts])
    all_goals
      obtain ⟨contents, same, -⟩ := depicts.exists_contents
      simp [same, Kind.withSlots, Kind.accessed?]
  constructor
  · intro needs
    rcases program.parent_cases within with ⟨-, top⟩ | ⟨holder, inside, isHolder, -⟩
    · rw [needsParensNegated, top] at needs
      cases needs
    · exact ⟨holder, inside, (atHolder inside isHolder).1 needs⟩
  · rintro ⟨holder, inside, accessed⟩
    exact (atHolder inside (held accessed)).2 accessed

/-- Where no negation is found around a part, and a negation of it needs no parentheses, one can be
put around it. -/
theorem takesNegation (program : tree.IsProgram whole) (within : part ∈ whole.subterms)
    (unnegated : tree.negation? part.ref = none)
    (unaccessed : tree.needsParensNegated part.ref = false) :
    TakesNegation whole part where
  unnegated around isAround wraps above inside form := by
    rw [program.negation?_of_wraps wraps inside form] at unnegated
    cases unnegated
  unaccessed holder inside accessed := by
    rw [(program.needsParensNegated_iff within).2 ⟨holder, inside, accessed⟩] at unaccessed
    cases unaccessed

end IsProgram

end Tree

namespace QuantifierCall

variable {tree : Tree} {whole term above : Outline}

/-- A call that takes a negation is negated where it stands. -/
theorem negateCall_adds (program : tree.IsProgram whole) (within : term ∈ whole.subterms)
    (takes : TakesNegation whole term) : ∃ place after, negateCall term.ref tree = .ok ((), after) ∧
      after.IsProgram (Term.swap term.ref (.node place (.unary .not (some term))) whole) := by
  obtain ⟨around, isAround, same, -, wraps⟩ := program.exists_aroundParens within tree.depthBound
  replace same : tree.aroundParens term.ref (tree.ancestors term.ref) = around.ref := same
  have unnegated : tree.isNegation (tree.parent around.ref) = false := by
    rcases program.parent_cases isAround with ⟨-, top⟩ | ⟨above, inside, held, up⟩
    · rw [top]
      rfl
    · rw [up, isNegation]
      split
      · rename_i isUnary
        obtain ⟨operand, form, -⟩ := (isUnary ▸ (program.stands.shows inside).depicts).unary
        obtain rfl : operand = some around := by simpa [Term.children, form, Term.parts] using held
        exact absurd form (takes.unnegated around isAround wraps above inside)
      · rfl
  have unaccessed : tree.needsParensNegated term.ref = false := by
    by_contra needs
    obtain ⟨holder, inside, accessed⟩ :=
      (program.needsParensNegated_iff within).1 (Bool.eq_true_of_not_eq_false needs)
    exact takes.unaccessed holder inside accessed
  obtain ⟨_, _, negated, made, builds, place, rfl, rfl⟩ := @Build.unary_makes tree
    (some term) .not program.stored (StandsAll.singleton_iff.2 (program.stands.subterm within))
  obtain ⟨after, put, places⟩ := put_built program within builds
  refine ⟨place, after, ?_, places.program⟩
  rw [negateCall, Change.get_bind]
  dsimp only
  rw [same, unnegated, Bool.and_false, if_neg Bool.false_ne_true, Change.lift_bind,
    show Build.unary .not term.ref tree = _ from made, unaccessed]
  exact put

/-- A call whose negation stands directly around it comes in the place of the negation. -/
theorem negateCall_takes (program : tree.IsProgram whole) (within : above ∈ whole.subterms)
    (form : above.kind = .unary .not (some term)) :
    ∃ after, negateCall term.ref tree = .ok ((), after) ∧
      after.IsProgram (Term.swap above.ref term whole) := by
  obtain ⟨after, negated, places⟩ := negateCall_removes program within form (self_mem_subterms term)
    (program.aroundParens_of_negation within form)
  exact ⟨after, negated, places.program⟩

end QuantifierCall

namespace Term

variable {α : Type} {f : Term α → Term α} {form : Form α}

/-- Only a call becomes a call when its children change. -/
theorem exists_of_mapChildren_invoke {callee : Option (Term α)} {arguments : List (Term α)}
    (same : mapChildren f form = .invoke callee arguments) :
    ∃ callee' arguments', form = .invoke callee' arguments' ∧ callee'.map f = callee ∧
    arguments'.map f = arguments := by
  cases form
  case invoke => exact ⟨_, _, rfl, (Kind.invoke.inj same).1, (Kind.invoke.inj same).2⟩
  all_goals cases same

/-- Only a member access becomes one when its children change. -/
theorem exists_of_mapChildren_member {receiver : Option (Term α)} {name : String}
    {conditional : Bool}
    (same : mapChildren f form = .member receiver name conditional) :
    ∃ receiver', form = .member receiver' name conditional ∧ receiver'.map f = receiver := by
  cases form
  case member =>
    obtain ⟨isReceiver, rfl, rfl⟩ := Kind.member.inj same
    exact ⟨_, rfl, isReceiver⟩
  all_goals cases same

/-- Only an argument becomes one when its children change. -/
theorem exists_of_mapChildren_argument {modifier : Modifier} {value : Option (Term α)}
    (same : mapChildren f form = .argument modifier value) :
    ∃ value', form = .argument modifier value' ∧ value'.map f = value := by
  cases form
  case argument =>
    obtain ⟨rfl, isValue⟩ := Kind.argument.inj same
    exact ⟨_, rfl, isValue⟩
  all_goals cases same

/-- Only a lambda becomes one when its children change. -/
theorem exists_of_mapChildren_lambda {params : List (Term α)} {body : Option (Term α)}
    {parenthesized : Bool}
    (same : mapChildren f form = .lambda params body parenthesized) :
    ∃ params' body', form = .lambda params' body' parenthesized ∧ params'.map f = params ∧
    body'.map f = body := by
  cases form
  case lambda =>
    obtain ⟨areParams, isBody, rfl⟩ := Kind.lambda.inj same
    exact ⟨_, _, rfl, areParams, isBody⟩
  all_goals cases same

/-- Only a parameter becomes one when its children change. -/
theorem exists_of_mapChildren_param {type : Option (Term α)} {name : String}
    (same : mapChildren f form = .param type name) :
    ∃ type', form = .param type' name := by
  cases form
  case param =>
    obtain ⟨-, rfl⟩ := Kind.param.inj same
    exact ⟨_, rfl⟩
  all_goals cases same

end Term

/-- What becomes a call that can be inverted when a call or a negation in it gets the place of
another one was such a call before. -/
theorem Invertible.of_swap {outer old new : Outline} (once : outer.refs.Nodup)
    (within : old ∈ outer.subterms)
    (other : outer.ref ≠ old.ref) (isOld : old.kind.isCallOrNegation)
    (isNew : new.kind.isCallOrNegation)
    (invertible : Invertible (Term.swap old.ref new outer)) : Invertible outer := by
  obtain ⟨quantifier, access', argument', lambda', param', type', name, receiver', body',
    conditional, parenthesized, ⟨form, formAccess, formArgument, formLambda⟩, isParam, negatable⟩ :=
    invertible
  -- A part whose kind is not one of a call or a negation is not the one that got the place.
  have stays {part : Outline} {kind : Form Place} (form : (Term.swap old.ref new part).kind = kind)
      (differs : kind.isCallOrNegation = false) :
      mapChildren (Term.swap old.ref new) part.kind = kind := by
    by_cases here : part.ref = old.ref
    · rw [← here, swap_self] at form
      rw [form, differs] at isNew
      cases isNew
    · rwa [kind_swap_of_ne here] at form
  rw [kind_swap_of_ne other] at form
  obtain ⟨callee, arguments, isCall, isCallee, areArguments⟩ := exists_of_mapChildren_invoke form
  obtain ⟨access, rfl, rfl⟩ := Option.map_eq_some_iff.1 isCallee
  obtain ⟨argument, rfl, rfl⟩ := List.map_eq_singleton_iff.1 areArguments
  obtain ⟨receiver, isAccess, -⟩ := exists_of_mapChildren_member (stays formAccess rfl)
  obtain ⟨value, isArgument, isValue⟩ := exists_of_mapChildren_argument (stays formArgument rfl)
  obtain ⟨lambda, rfl, rfl⟩ := Option.map_eq_some_iff.1 isValue
  obtain ⟨params, result, isLambda, areParams, isResult⟩ :=
    exists_of_mapChildren_lambda (stays formLambda rfl)
  obtain ⟨param, rfl, rfl⟩ := List.map_eq_singleton_iff.1 areParams
  obtain ⟨body, rfl, rfl⟩ := Option.map_eq_some_iff.1 isResult
  obtain ⟨type, isParam⟩ := exists_of_mapChildren_param (stays isParam rfl)
  refine ⟨quantifier, access, argument, lambda, param, type, name, receiver, body, conditional,
    parenthesized, ⟨isCall, isAccess, isArgument, isLambda⟩, isParam, ?_⟩
  by_cases here : body.ref = old.ref
  · have inside : body ∈ outer.subterms := by
      have heldArgument : argument ∈ outer.children := by simp [Term.children, isCall, Term.parts]
      have heldLambda : lambda ∈ argument.children := by
        simp [Term.children, isArgument, Term.parts]
      have heldBody : body ∈ lambda.children := by simp [Term.children, isLambda, Term.parts]
      exact mem_subterms_of_child heldArgument
        (mem_subterms_of_child heldLambda (child_mem_subterms heldBody))
    rw [subterm_unique once inside within here]
    exact Kind.isNegatable_of_isCallOrNegation isOld
  · rwa [kind_swap_of_ne here, Kind.isNegatable_of_skeleton (skeleton_mapChildren _ _)] at negatable

namespace Tree

variable {tree after : Tree} {whole container old new : Outline} {call found : QuantifierCall}

/-- Of two parts of a term, neither of which is in the other one, no place is in both. -/
theorem disjoint_of_not_mem {term part other : Outline} (once : term.refs.Nodup)
    (within : part ∈ term.subterms)
    (isOther : other ∈ term.subterms) (outside : part.ref ∉ other.refs)
    (apart : other ∉ part.subterms) :
    part.refs.Disjoint other.refs := by
  intro ref inPart inOther
  obtain ⟨shared, isShared, rfl⟩ := mem_refs.1 inPart
  obtain ⟨shared', isShared', same⟩ := mem_refs.1 inOther
  obtain rfl :=
    subterm_unique once (subterms_trans isOther isShared') (subterms_trans within isShared) same
  rcases subterms_comparable once within isOther isShared isShared' with below | below
  · exact outside (mem_refs.2 ⟨part, below, rfl⟩)
  · exact apart below

/-- Where a call or a negation that holds the first quantifier call of a statement gives its place
to another call or negation, the first quantifier call in that is the first one of the statement. -/
theorem first_of_swap (program : tree.IsProgram whole)
    (isProgram : after.IsProgram (Term.swap old.ref new whole))
    (within : container ∈ whole.subterms) (inside : old ∈ container.subterms)
    (isOld : old.kind.isCallOrNegation) (isNew : new.kind.isCallOrNegation)
    (first : container.refs.findSome? tree.quantifierCall? = some call)
    (isCall : call.call ∈ old.refs)
    (isFound : new.refs.findSome? after.quantifierCall? = some found) :
    (Term.swap old.ref new container).refs.findSome? after.quantifierCall? = some found := by
  have once := (program.stands.subterm within).once
  obtain ⟨front, back, refs, swapped⟩ := @refs_swap new _ _ once inside
  have within' := @swap_mem_subterms new _ _ program.stands.once _ within inside
  rw [refs] at once first
  have apart : ∀ ref ∈ front, ref ∉ old.refs := fun ref ahead inOld =>
    (List.nodup_append.1 once).2.2 ref ahead ref (List.mem_append_left _ inOld) rfl
  -- Nothing ahead of the place was found before, so nothing is found there now.
  have quiet : ∀ ref ∈ front, tree.quantifierCall? ref = none := by
    by_contra loud
    push Not at loud
    obtain ⟨ref, ahead, isSome⟩ := loud
    obtain ⟨other, isOther⟩ := Option.ne_none_iff_exists'.1 (fun none => isSome
      (List.findSome?_eq_none_iff.1 none ref ahead) : front.findSome? tree.quantifierCall? ≠ none)
    rw [List.findSome?_append, isOther] at first
    cases first
    obtain ⟨place, isAhead, isThere⟩ := List.exists_of_findSome?_eq_some isOther
    exact apart place isAhead (call_of_quantifierCall? isThere ▸ isCall)
  have still : ∀ ref ∈ front, after.quantifierCall? ref = none := by
    intro ref ahead
    obtain ⟨part, isPart, rfl⟩ :=
      mem_refs.1 (refs ▸ List.mem_append_left _ ahead : ref ∈ container.refs)
    have wasQuiet : ¬ Invertible part := fun invertible => by
      obtain ⟨_, found⟩ := (exists_quantifierCall?_iff (program.stands.subterm
        (subterms_trans within isPart)).shown).2 invertible
      rw [quiet _ ahead] at found
      cases found
    refine Option.eq_none_iff_forall_ne_some.2 fun other isOther => wasQuiet ?_
    by_cases around : old ∈ part.subterms
    · have isPart' :=
        @swap_mem_subterms new _ _ (program.stands.subterm within).once _ isPart around
      have apartHere : part.ref ≠ old.ref := fun same => apart _ ahead (same ▸ ref_mem_refs old)
      refine Invertible.of_swap
        (program.stands.subterm (subterms_trans within isPart)).once around apartHere isOld isNew ?_
      refine (exists_quantifierCall?_iff
        (isProgram.stands.subterm (subterms_trans within' isPart')).shown).1 ⟨other, ?_⟩
      rw [ref_swap_of_ne apartHere]
      exact isOther
    · have outside := disjoint_of_not_mem (program.stands.subterm within).once isPart inside
        (apart _ ahead) around
      have isPart' := @mem_subterms_swap_of_disjoint new _ _ (program.stands.subterm within).once
        _ isPart inside outside
      exact (exists_quantifierCall?_iff
        (isProgram.stands.subterm (subterms_trans within' isPart')).shown).1 ⟨other, isOther⟩
  rw [swapped, List.findSome?_append, List.findSome?_eq_none_iff.2 still,
    List.findSome?_append, isFound]
  rfl

end Tree

namespace Context

variable {tree : Tree} {settings : Settings} {whole container term above : Outline}
  {quantifier : Quantifier} {receiver : Option Outline}

/-- The quantifier call that is found first is inverted. -/
theorem invertQuantifier_of_found {context : Context} {ref : Ref} {call : QuantifierCall}
    {after : Tree}
    (isStatement : (context.tree.kind ref).isStatement)
    (found : (context.tree.descendants ref).findSome? context.tree.quantifierCall? = some call)
    (inverted : call.invert context.tree = .ok ((), after)) :
    Attempt.Gives (context.attempt .invertQuantifier ref)
      fun offered => ∃ action, offered = some action ∧ action.result = after := by
  change Attempt.Gives (context.invertQuantifier ref) _
  rw [invertQuantifier, statementOf_of_isStatement isStatement, found]
  exact (offer_of_eq inverted).mono fun offered isOffered => ⟨_, isOffered, rfl⟩

/-- To invert a quantifier call with a plain predicate is to negate its dual. -/
theorem exists_inverted (program : tree.IsProgram whole) (within : term ∈ whole.subterms)
    (isPlain : QuantifiesPlainly quantifier receiver term) : ∃ renamed dual,
      QuantifierCall.invert ⟨term.ref, quantifier⟩ tree
        = QuantifierCall.negateCall dual.ref renamed ∧
      renamed.IsProgram (Term.swap term.ref dual whole) ∧ dual.ref = term.ref ∧
      Dualizes quantifier receiver term dual := by
  obtain ⟨access, argument, lambda, param, type, name, body, conditional, parenthesized, quantifies,
    isParam, isPlain⟩ := isPlain
  obtain ⟨form, formAccess, formArgument, formLambda⟩ := quantifies
  have shown := (program.stands.subterm within).shown
  have argumentChild : argument ∈ term.children := by simp [Term.children, form, Term.parts]
  have lambdaChild : lambda ∈ argument.children := by simp [Term.children, formArgument, Term.parts]
  have bodyChild : body ∈ lambda.children := by simp [Term.children, formLambda, Term.parts]
  have negatable : tree.isNegatable body.ref := by
    rw [isNegatable_eq, Kind.isNegatable_of_skeleton
      (((shown.child argumentChild).child lambdaChild).child bodyChild).here.depicts.skeleton]
    exact isPlain.isNegatable
  obtain ⟨renamed, dual, inverted, -, inverts⟩ :=
    @Quantifies.invert_eq tree ⟨term.ref, quantifier⟩ _ _ _ _ _ _ _ _ _ _
    program within ⟨form, formAccess, formArgument, formLambda⟩ rfl negatable
    (calledMember?_of_form shown form formAccess)
    (singleArgument?_of_passes shown ⟨_, _, form, formArgument⟩)
  exact ⟨renamed, dual, inverted, inverts⟩

/-- A call that becomes its dual is one that can be inverted, and so is its dual. -/
theorem quantifierCall?_of_plain (shown : term.All tree.Shows)
    (isPlain : QuantifiesPlainly quantifier receiver term) :
    tree.quantifierCall? term.ref = some ⟨term.ref, quantifier⟩ := by
  obtain ⟨_, _, _, _, _, _, _, _, _, quantifies, isParam, isPlain⟩ := isPlain
  exact quantifierCall?_of_form shown quantifies isParam isPlain.isNegatable

/-- Inverting the first quantifier call of a statement puts a negation around its dual where one can
stand. -/
theorem invertQuantifier_adds (program : tree.IsProgram whole) (within : container ∈ whole.subterms)
    (isStatement : container.kind.isStatement) (inside : term ∈ container.subterms)
    (isPlain : QuantifiesPlainly quantifier receiver term) (takes : TakesNegation whole term)
    (first : container.refs.findSome? tree.quantifierCall? = some ⟨term.ref, quantifier⟩) :
    ∃ action, (ofTree tree settings).offered? .invertQuantifier container.ref = .ok (some action) ∧
      ∃ place dual, Dualizes quantifier receiver term dual ∧ action.result.IsProgram
        (Term.swap term.ref (.node place (.unary .not (some dual))) whole) := by
  have inWhole := subterms_trans within inside
  obtain ⟨renamed, dual, inverted, isRenamed, same, dualizes⟩ :=
    exists_inverted program inWhole isPlain
  obtain ⟨place, after, negated, isProgram⟩ := QuantifierCall.negateCall_adds isRenamed
    (mem_subterms_swap program.stands.once inWhole)
    (takes.swap program.stands.once inWhole isRenamed.stands.once)
  rw [swap_swap_self program.stands.once inWhole isRenamed.stands.once] at isProgram
  rw [← Kind.isStatement_of_skeleton (program.stands.shows within).depicts.skeleton] at isStatement
  rw [← (program.stands.subterm within).descendants] at first
  obtain ⟨action, offered, isAfter⟩ := offered?_of_gives
    (@invertQuantifier_of_found (ofTree tree settings) _ _ _ isStatement first
    (inverted.trans negated))
  exact ⟨action, offered, place, dual, dualizes, isAfter ▸ isProgram⟩

/-- Inverting the first quantifier call of a statement puts its dual in the place of a negation
directly around it. -/
theorem invertQuantifier_takes (program : tree.IsProgram whole)
    (within : container ∈ whole.subterms)
    (isStatement : container.kind.isStatement) (inside : above ∈ container.subterms)
    (form : above.kind = .unary .not (some term))
    (isPlain : QuantifiesPlainly quantifier receiver term)
    (first : container.refs.findSome? tree.quantifierCall? = some ⟨term.ref, quantifier⟩) :
    ∃ action, (ofTree tree settings).offered? .invertQuantifier container.ref = .ok (some action) ∧
      ∃ dual, Dualizes quantifier receiver term dual ∧
      action.result.IsProgram (Term.swap above.ref dual whole) := by
  have aboveWithin := subterms_trans within inside
  have held : term ∈ above.children := by simp [Term.children, form, Term.parts]
  have inWhole := subterms_child aboveWithin held
  obtain ⟨renamed, dual, inverted, isRenamed, same, dualizes⟩ :=
    exists_inverted program inWhole isPlain
  have onceAbove := (program.stands.subterm aboveWithin).once
  have apart : above.ref ≠ term.ref := ref_ne_of_child onceAbove held (self_mem_subterms term)
  have formSwapped : (Term.swap term.ref dual above).kind = .unary .not (some dual) := by
    rw [kind_swap_of_ne apart, form, mapChildren_unary, Option.map_some, swap_self]
  obtain ⟨after, negated, isProgram⟩ := QuantifierCall.negateCall_takes isRenamed
    (swap_mem_subterms program.stands.once aboveWithin (child_mem_subterms held)) formSwapped
  rw [ref_swap same,
    swap_swap program.stands.once aboveWithin (child_mem_subterms held) same] at isProgram
  rw [← Kind.isStatement_of_skeleton (program.stands.shows within).depicts.skeleton] at isStatement
  rw [← (program.stands.subterm within).descendants] at first
  obtain ⟨action, offered, isAfter⟩ := offered?_of_gives
    (@invertQuantifier_of_found (ofTree tree settings) _ _ _ isStatement first
    (inverted.trans negated))
  exact ⟨action, offered, dual, dualizes, isAfter ▸ isProgram⟩

/-- A statement stays where a call or a negation in it gives its place to another part. -/
theorem statement_of_swap {old new : Outline} (once : whole.refs.Nodup)
    (within : container ∈ whole.subterms)
    (isStatement : container.kind.isStatement) (inside : old ∈ container.subterms)
    (isOld : old.kind.isCallOrNegation) :
    Term.swap old.ref new container ∈ (Term.swap old.ref new whole).subterms ∧
      (Term.swap old.ref new container).kind.isStatement ∧
      (Term.swap old.ref new container).ref = container.ref := by
  have apart : container.ref ≠ old.ref := fun same => by
    rw [subterm_unique (once.sublist (refs_sublist within)) (self_mem_subterms container) inside
      same, Kind.isStatement_of_isCallOrNegation isOld] at isStatement
    cases isStatement
  refine ⟨swap_mem_subterms once within inside, ?_, ref_swap_of_ne apart⟩
  rw [kind_swap_of_ne apart, Kind.isStatement_of_skeleton (skeleton_mapChildren _ _)]
  exact isStatement

/-- Inverting twice a call that takes a negation restores the shape of the program. -/
theorem invertQuantifier_adds_takes (program : tree.IsProgram whole)
    (within : container ∈ whole.subterms)
    (isStatement : container.kind.isStatement) (inside : term ∈ container.subterms)
    (isPlain : QuantifiesPlainly quantifier receiver term) (takes : TakesNegation whole term)
    (first : container.refs.findSome? tree.quantifierCall? = some ⟨term.ref, quantifier⟩) :
    ∃ once twice, (ofTree tree settings).offered? .invertQuantifier container.ref =
    .ok (some once) ∧
      (ofTree once.result settings).offered? .invertQuantifier container.ref = .ok (some twice) ∧
      twice.result.shape = tree.shape := by
  have inWhole := subterms_trans within inside
  obtain ⟨once, offered, place, dual, dualizes, isProgram⟩ :=
    @invertQuantifier_adds _ settings _ _ _ _ _ program within isStatement inside isPlain
    takes first
  obtain ⟨isPlainDual, restores⟩ := dualizes.again isPlain
  set negation : Outline := .node place (.unary .not (some dual))
  have isOld := isPlain.isCallOrNegation
  obtain ⟨within', isStatement', same⟩ :=
    @statement_of_swap _ _ _ negation program.stands.once within isStatement inside isOld
  have isNegation : negation ∈ (Term.swap term.ref negation container).subterms :=
    mem_subterms_swap (program.stands.subterm within).once inside
  have standsNegation := isProgram.stands.subterm (subterms_trans within' isNegation)
  have first' : (Term.swap term.ref negation container).refs.findSome? once.result.quantifierCall? =
      some ⟨dual.ref, quantifier.dual⟩ := by
    refine first_of_swap program isProgram within inside isOld rfl first (ref_mem_refs term) ?_
    have isNone : once.result.quantifierCall? negation.ref = none := by
      refine Option.eq_none_iff_forall_ne_some.2 fun other found => ?_
      obtain ⟨_, _, _, _, _, _, _, _, _, _, _, ⟨form, -⟩, -⟩ :=
        (exists_quantifierCall?_iff standsNegation.shown).1 ⟨other, found⟩
      cases form
    have isDual : once.result.quantifierCall? dual.ref = some ⟨dual.ref, quantifier.dual⟩ :=
      quantifierCall?_of_plain (standsNegation.shown.child
        (by simp [negation, Term.children, Term.kind, Term.parts])) isPlainDual
    rw [refs_eq, List.findSome?_cons, isNone]
    simp [negation, innerRefs, Term.children, Term.kind, Term.parts, refs_eq dual, isDual]
  obtain ⟨twice, offered', dual', dualizes', isProgram'⟩ :=
    @invertQuantifier_takes _ settings _ _ _ _ _ _ isProgram within' isStatement' isNegation rfl
    isPlainDual first'
  rw [same] at offered'
  rw [swap_swap_self program.stands.once inWhole isProgram.stands.once] at isProgram'
  refine ⟨once, twice, offered, offered', ?_⟩
  rw [Tree.shape, Tree.shape, isProgram'.outline_root, program.outline_root]
  exact shape_swap program.stands.once inWhole (restores dual' dualizes')

/-- Inverting twice a call with a negation directly around it, which takes a negation itself,
restores the shape of the program. -/
theorem invertQuantifier_takes_adds (program : tree.IsProgram whole)
    (within : container ∈ whole.subterms)
    (isStatement : container.kind.isStatement) (inside : above ∈ container.subterms)
    (form : above.kind = .unary .not (some term))
    (isPlain : QuantifiesPlainly quantifier receiver term)
    (takes : TakesNegation whole above)
    (first : container.refs.findSome? tree.quantifierCall? = some ⟨term.ref, quantifier⟩) :
    ∃ once twice, (ofTree tree settings).offered? .invertQuantifier container.ref =
    .ok (some once) ∧
      (ofTree once.result settings).offered? .invertQuantifier container.ref = .ok (some twice) ∧
      twice.result.shape = tree.shape := by
  have inWhole := subterms_trans within inside
  have held : term ∈ above.children := by simp [Term.children, form, Term.parts]
  obtain ⟨once, offered, dual, dualizes, isProgram⟩ :=
    @invertQuantifier_takes _ settings _ _ _ _ _ _ program within isStatement inside form
    isPlain first
  obtain ⟨isPlainDual, restores⟩ := dualizes.again isPlain
  have isOld : above.kind.isCallOrNegation := by rw [form]; rfl
  obtain ⟨within', isStatement', same⟩ :=
    @statement_of_swap _ _ _ dual program.stands.once within isStatement inside isOld
  have isDual : dual ∈ (Term.swap above.ref dual container).subterms :=
    mem_subterms_swap (program.stands.subterm within).once inside
  have standsDual := isProgram.stands.subterm (subterms_trans within' isDual)
  have first' : (Term.swap above.ref dual container).refs.findSome? once.result.quantifierCall? =
      some ⟨dual.ref, quantifier.dual⟩ := by
    refine first_of_swap program isProgram within inside isOld isPlainDual.isCallOrNegation first
      (refs_subset (child_mem_subterms held) (ref_mem_refs term)) ?_
    rw [refs_eq, List.findSome?_cons, quantifierCall?_of_plain standsDual.shown isPlainDual]
  obtain ⟨twice, offered', place, dual', dualizes', isProgram'⟩ :=
    @invertQuantifier_adds _ settings _ _ _ _ _ isProgram within' isStatement' isDual isPlainDual
      (takes.swap program.stands.once inWhole isProgram.stands.once) first'
  rw [same] at offered'
  rw [swap_swap_self program.stands.once inWhole isProgram.stands.once] at isProgram'
  refine ⟨once, twice, offered, offered', ?_⟩
  rw [Tree.shape, Tree.shape, isProgram'.outline_root, program.outline_root]
  refine shape_swap program.stands.once inWhole ?_
  rcases above with ⟨note, kind⟩
  obtain rfl : kind = _ := form
  simp [restores dual' dualizes']

/-- A quantifier call whose predicate is plain is found to be one. -/
theorem exists_plain_of_found {call : QuantifierCall} (shown : term.All tree.Shows)
    (found : tree.quantifierCall? term.ref = some call)
    (predicate : ∀ passed lambda, tree.singleArgument? term.ref = some passed →
      tree.simpleLambda? passed = some lambda → tree.isPlainPredicate lambda.body) :
    ∃ quantifier receiver, QuantifiesPlainly quantifier receiver term ∧
    call = ⟨term.ref, quantifier⟩ := by
  obtain ⟨access, argument, lambda, param, type, name, receiver, body, conditional, parenthesized,
    quantifies, isParam,
    -, isPassed, isLambda⟩ := exists_parts_of_quantifierCall? shown found
  have argumentChild : argument ∈ term.children := by
    simp [Term.children, quantifies.form, Term.parts]
  have lambdaChild : lambda ∈ argument.children := by
    simp [Term.children, quantifies.formArgument, Term.parts]
  have bodyChild : body ∈ lambda.children := by
    simp [Term.children, quantifies.formLambda, Term.parts]
  have isPlain :=
    isPlainPredicate_of_shown (((shown.child argumentChild).child lambdaChild).child bodyChild)
      (predicate _ _ isPassed isLambda)
  refine ⟨call.quantifier, receiver, ⟨_, _, _, _, _, _, _, _, _, quantifies, isParam, isPlain⟩, ?_⟩
  rw [← call_of_quantifierCall? found]

/-- Inverting the quantifier of a statement twice restores the shape of the program: where the
predicate of the call that is inverted is a comparison, a reading, or a negation applied to a
reading, the call is not accessed or called itself, and it has no negation around it, or one applied
to it directly which has none around it and is not accessed or called. (In the tree of a text what
is accessed or called is never a negation, other than in parentheses.) -/
theorem invertQuantifier_twice {tree : Tree} {settings : Settings} {statement : Ref}
    {call : QuantifierCall} (wellFormed : tree.WellFormed) (attached : statement ∈ tree.attached)
    (isStatement : (tree.kind statement).isStatement)
    (picked : (tree.descendants statement).findSome? tree.quantifierCall? = some call)
    (predicate : ∀ passed lambda, tree.singleArgument? call.call = some passed →
      tree.simpleLambda? passed = some lambda → tree.isPlainPredicate lambda.body)
    (unaccessed : tree.needsParensNegated call.call = false)
    (negated : ∀ negation, tree.negation? call.call = some negation →
      tree.kind negation = .unary .not call.call ∧
      tree.negation? negation = none ∧ tree.needsParensNegated negation = false) :
    ∃ once twice, (ofTree tree settings).offered? .invertQuantifier statement = .ok (some once) ∧
      (ofTree once.result settings).offered? .invertQuantifier statement = .ok (some twice) ∧
      twice.result.shape = tree.shape := by
  obtain ⟨whole, program⟩ := wellFormed_iff.1 wellFormed
  rw [program.attached] at attached
  obtain ⟨container, within, rfl⟩ := mem_refs.1 attached
  have standsContainer := program.stands.subterm within
  rw [Kind.isStatement_of_skeleton (program.stands.shows within).depicts.skeleton] at isStatement
  rw [standsContainer.descendants] at picked
  obtain ⟨ref, inRefs, found⟩ := List.exists_of_findSome?_eq_some picked
  obtain ⟨term, inside, rfl⟩ := mem_refs.1 inRefs
  have inWhole := subterms_trans within inside
  have shown := (program.stands.subterm inWhole).shown
  obtain ⟨quantifier, receiver, isPlain, rfl⟩ :=
    exists_plain_of_found shown found (call_of_quantifierCall? found ▸ predicate)
  cases around : tree.negation? term.ref with
  | none =>
    exact invertQuantifier_adds_takes program within isStatement inside isPlain
      (program.takesNegation inWhole around unaccessed) picked
  | some negation =>
    obtain ⟨isKind, unnegated, unaccessedNegation⟩ := negated negation around
    obtain ⟨above, isAbove, rfl⟩ := program.mem_of_negation? inWhole around
    have form : above.kind = .unary .not (some term) := by
      obtain ⟨operand, form, same⟩ := (isKind ▸ (program.stands.shows isAbove).depicts).unary
      obtain ⟨_, -, present⟩ := program.stands.hasRef (mem_refs.2 ⟨term, inWhole, rfl⟩)
      cases operand with
      | none => cases same.trans present
      | some operand =>
        have isOperand : operand ∈ above.subterms :=
          child_mem_subterms (by simp [Term.children, form, Term.parts])
        rwa [subterm_unique program.stands.once
          (subterms_trans isAbove isOperand) inWhole same] at form
    have held : term ∈ above.children := by simp [Term.children, form, Term.parts]
    -- The negation is no statement, so the statement is around it.
    have inContainer : above ∈ container.subterms := by
      refine (subterms_comparable program.stands.once isAbove within
        (child_mem_subterms held) inside).resolve_right fun below => ?_
      rw [subterms_eq, Term.children, form] at below
      rcases List.mem_cons.1 below with rfl | below
      · rw [form] at isStatement
        cases isStatement
      · have below : container ∈ term.subterms := by simpa [Term.parts] using below
        rw [eq_of_mem_subterms below inside,
          Kind.isStatement_of_isCallOrNegation isPlain.isCallOrNegation] at isStatement
        cases isStatement
    exact invertQuantifier_takes_adds program within isStatement inContainer form isPlain
      (program.takesNegation isAbove unnegated unaccessedNegation) picked

/-- A negated quantifier in parentheses, whose predicate is a negated quantifier, comes back. -/
theorem invertQuantifier_twice_of_negated : ∃ tree once twice,
    Tree.parse 0 "var q = (!xs.All(x => !ys.Any(y => y == x)));" = .ok tree ∧
      (ofTree tree {}).offered? .invertQuantifier (some 20) = .ok (some once) ∧
      (ofTree once.result {}).offered? .invertQuantifier (some 20) = .ok (some twice) ∧
      twice.result.shape = tree.shape := by
  have facts :
      (Tree.parse 0 "var q = (!xs.All(x => !ys.Any(y => y == x)));").toOption.any (fun tree =>
      some 20 ∈ tree.attached && (tree.kind (some 20)).isStatement &&
        ((tree.descendants (some 20)).findSome? tree.quantifierCall?).any fun call =>
          ((tree.singleArgument? call.call).all fun passed => (tree.simpleLambda? passed).all
          fun lambda => tree.isPlainPredicate lambda.body) && !tree.needsParensNegated call.call &&
          (tree.negation? call.call).all fun negation => tree.kind negation = .unary .not call.call
          && tree.negation? negation = none && !tree.needsParensNegated negation) = true := by
    decide +kernel
  obtain ⟨tree, parsed, facts⟩ := exists_of_any facts
  simp only [Bool.and_eq_true, decide_eq_true_eq] at facts
  obtain ⟨⟨attached, isStatement⟩, facts⟩ := facts
  obtain ⟨call, picked, facts⟩ := (Option.any_eq_true _ _).1 facts
  simp only [Bool.and_eq_true, Bool.not_eq_true', decide_eq_true_eq, Option.all_eq_true] at facts
  obtain ⟨⟨predicate, unaccessed⟩, negated⟩ := facts
  obtain ⟨once, twice, isOnce, isTwice, same⟩ :=
    @invertQuantifier_twice tree {} _ call (wellFormed_of_parse parsed)
    attached isStatement picked
      (fun passed lambda isPassed isLambda => predicate passed isPassed lambda isLambda)
    unaccessed fun negation isNegation => by
      obtain ⟨⟨isKind, unnegated⟩, unaccessed⟩ := negated negation isNegation
      exact ⟨isKind, unnegated, unaccessed⟩
  exact ⟨tree, once, twice, parsed, isOnce, isTwice, same⟩

/-- The statement `!q.Any(x => x.A)` of which the member `M` is read, as a term. A text has
parentheses around such a negation. -/
def memberOfNegation : SourceTerm :=
  let ident (name : String) : SourceTerm := .node .nowhere (.ident name)
  let read (receiver : SourceTerm) (name : String) : SourceTerm :=
    .node .nowhere (.member (some receiver) name false)
  let param : SourceTerm := .node .nowhere (.param none "x")
  let lambda : SourceTerm := .node .nowhere (.lambda [param] (some (read (ident "x") "A")) false)
  let call : SourceTerm := .node .nowhere (.invoke (some (read (ident "q") "Any"))
    [.node .nowhere (.argument .plain (some lambda))])
  let negation : SourceTerm := .node .nowhere (.unary .not (some call))
  .node .nowhere (.unit [.node .nowhere (.exprStmt (some (read negation "M")))])

/-- Its children are of the right sorts. -/
theorem memberOfNegation_inPlace : memberOfNegation.All InPlace := by
  refine all_iff_subterms.2 fun part inside => ⟨?_⟩
  revert part
  decide +kernel

/-- A call under one negation that is applied to it directly does not come back where a member is
read of the negation: the first inversion takes the negation away, so that the member is read of the
call, and the second one puts a negation in parentheses there. Neither does it come back where the
negation is negated once more: both negations are taken away. -/
theorem invertQuantifier_twice_changes :
    (∃ tree statement call negation once twice, tree.WellFormed ∧ tree.IsSorted ∧
      statement ∈ tree.attached ∧ (tree.kind statement).isStatement ∧
      (tree.descendants statement).findSome? tree.quantifierCall? = some call ∧
      (∀ passed lambda, tree.singleArgument? call.call = some passed →
        tree.simpleLambda? passed = some lambda → tree.isPlainPredicate lambda.body) ∧
      tree.needsParensNegated call.call = false ∧ tree.negation? call.call = some negation ∧
      tree.kind negation = .unary .not call.call ∧ tree.negation? negation = none ∧
      (ofTree tree {}).offered? .invertQuantifier statement = .ok (some once) ∧
      (ofTree once.result {}).offered? .invertQuantifier statement = .ok (some twice) ∧
      twice.result.shape ≠ tree.shape) ∧
    ∃ tree statement call negation once twice, Tree.parse 0 "!!q.Any(x => x.A);" = .ok tree ∧
      (tree.descendants statement).findSome? tree.quantifierCall? = some call ∧
      tree.negation? call.call = some negation ∧ tree.kind negation = .unary .not call.call ∧
      (ofTree tree {}).offered? .invertQuantifier statement = .ok (some once) ∧
      (ofTree once.result {}).offered? .invertQuantifier statement = .ok (some twice) ∧
      twice.result.shape ≠ tree.shape := by
  -- Whether two inversions are offered and the shape has another number of nodes in the end.
  let changes (tree : Tree) (statement : Ref) : Bool :=
    ((ofTree tree {}).offered? .invertQuantifier statement).toOption.any fun once =>
    once.any fun once =>
      ((ofTree once.result {}).offered? .invertQuantifier statement).toOption.any fun twice =>
        twice.any fun twice => twice.result.shape.subterms.length != tree.shape.subterms.length
  have exists_twice {tree : Tree} {statement : Ref} (changed : changes tree statement = true) :
      ∃ once twice, (ofTree tree {}).offered? .invertQuantifier statement = .ok (some once) ∧
        (ofTree once.result {}).offered? .invertQuantifier statement = .ok (some twice) ∧
        twice.result.shape ≠ tree.shape := by
    obtain ⟨once, isOnce, offers⟩ := (Option.any_eq_true _ _).1 changed
    obtain ⟨once, rfl, again⟩ := (Option.any_eq_true _ _).1 offers
    obtain ⟨twice, isTwice, offersAgain⟩ := (Option.any_eq_true _ _).1 again
    obtain ⟨twice, rfl, differ⟩ := (Option.any_eq_true _ _).1 offersAgain
    refine ⟨once, twice, eq_ok_of_toOption isOnce, eq_ok_of_toOption isTwice, fun same => ?_⟩
    rw [same] at differ
    simp at differ
  have facts : (some (ofTerm 0 memberOfNegation)).any (fun tree =>
      some 10 ∈ tree.attached && (tree.kind (some 10)).isStatement && changes tree (some 10) &&
        ((tree.descendants (some 10)).findSome? tree.quantifierCall?).any fun call =>
          ((tree.singleArgument? call.call).all fun passed => (tree.simpleLambda? passed).all
          fun lambda => tree.isPlainPredicate lambda.body) && !tree.needsParensNegated call.call &&
          (tree.negation? call.call).any fun negation =>
          tree.kind negation = .unary .not call.call && tree.negation? negation = none) = true := by
    decide +kernel
  have twoFacts : (Tree.parse 0 "!!q.Any(x => x.A);").toOption.any (fun tree =>
      changes tree (some 10) && ((tree.descendants (some 10)).findSome? tree.quantifierCall?).any
        fun call => (tree.negation? call.call).any fun negation =>
        tree.kind negation = .unary .not call.call) = true := by
    decide +kernel
  constructor
  · obtain ⟨wellFormed, sorted⟩ := wellFormed_and_isSorted_ofTerm 0 rfl memberOfNegation_inPlace
    rw [Option.any_some] at facts
    generalize ofTerm 0 memberOfNegation = tree at facts wellFormed sorted
    simp only [Bool.and_eq_true, decide_eq_true_eq] at facts
    obtain ⟨⟨⟨attached, isStatement⟩, changed⟩, facts⟩ := facts
    obtain ⟨call, picked, facts⟩ := (Option.any_eq_true _ _).1 facts
    simp only [Bool.and_eq_true, Bool.not_eq_true', Option.all_eq_true] at facts
    obtain ⟨⟨predicate, unaccessed⟩, facts⟩ := facts
    obtain ⟨negation, isNegation, facts⟩ := (Option.any_eq_true _ _).1 facts
    simp only [Bool.and_eq_true, decide_eq_true_eq] at facts
    obtain ⟨isKind, unnegated⟩ := facts
    obtain ⟨once, twice, isOnce, isTwice, differ⟩ := exists_twice changed
    exact ⟨tree, some 10, call, negation, once, twice, wellFormed, sorted, attached, isStatement,
      picked, fun passed lambda isPassed isLambda => predicate passed isPassed lambda isLambda,
      unaccessed, isNegation, isKind, unnegated, isOnce, isTwice, differ⟩
  · obtain ⟨tree, parsed, facts⟩ := exists_of_any twoFacts
    obtain ⟨changed, facts⟩ := Bool.and_eq_true_iff.1 facts
    obtain ⟨call, picked, facts⟩ := (Option.any_eq_true _ _).1 facts
    obtain ⟨negation, isNegation, isKind⟩ := (Option.any_eq_true _ _).1 facts
    obtain ⟨once, twice, isOnce, isTwice, differ⟩ := exists_twice changed
    exact ⟨tree, some 10, call, negation, once, twice, parsed, picked, isNegation,
      of_decide_eq_true isKind, isOnce, isTwice, differ⟩

end Context

end Refactory
