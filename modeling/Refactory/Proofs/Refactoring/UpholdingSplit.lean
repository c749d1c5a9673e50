import Refactory.Proofs.Refactoring.SplitBindings
import Refactory.Proofs.Refactoring.Upholding

/-!
# Runs of calls and grades

Splitting a filter or a projection leaves a program as a grade asks it to be
(`Context.splitFilter_upholds`, `Context.splitProjection_upholds`). A run of calls on something
tight is tight itself and as the grade asks if its functions are (`Term.IsRun.upholds`), so that it
may stand where the call did of which it is made (`LambdaCall.Stands.supplants`). The functions are
so since they are made of the operands of a conjunction (`Term.needs_conjuncts`), or of the layers
of a composition (`LambdaCall.Composes.upholds`).
-/
namespace Refactory

open Term Shape Refactory.Tree

namespace Term

section

variable {α : Type} {grade : Grade} {anchor call callee function : Term α} {param : Shape}
  {method : String} {body receiver : Option (Term α)} {conditional : Bool}

theorem isTight_of_isPath {root : Term α} {members : List String}
    (path : IsPath root members callee) :
    IsTight callee.shape := by
  cases path with
  | name isName => exact isTight_of_kind isName rfl
  | member isMember _ => exact isTight_of_kind isMember rfl

theorem isTight_of_isCallOn (isCall : IsCallOn callee function call) : IsTight call.shape := by
  obtain ⟨place, argument, rfl⟩ := isCall
  rfl

/-- A call of something that is as a grade asks, with a function that is so, is as the grade
asks. -/
theorem IsCallOn.upholds (isCall : IsCallOn callee function call)
    (upholdsCallee : Upholds grade callee.shape)
    (tight : IsTight callee.shape) (upholds : Upholds grade function.shape)
    (isExpression : isExpression function.shape = true) :
    Upholds grade call.shape := by
  obtain ⟨place, argument, rfl⟩ := isCall
  exact upholds_callOn upholdsCallee tight upholds isExpression

/-- A lambda over an expression that is as a grade asks is so. -/
theorem IsLambda.upholds (isLambda : IsLambda param body function)
    (isBare : isBareParam param = true) (upholdsParam : Upholds grade param)
    (upholds : ∀ term ∈ body, Upholds grade term.shape ∧ isExpression term.shape = true)
    (present : grade = .formed → body.isSome) :
    Upholds grade function.shape ∧ isExpression function.shape = true := by
  obtain ⟨lambda, copy, parenthesized, rfl, rfl⟩ := isLambda
  refine ⟨upholds_node_iff.2
    ⟨(meets_lambda_iff isBare).2 (needs_map_iff.2 ⟨?_, present⟩), fun child held => ?_⟩, rfl⟩
  · exact fun term held => .inr (upholds term held).2
  · have cases : child = copy ∨ child ∈ body := by simpa [parts] using held
    rcases cases with rfl | held
    · exact upholdsParam
    · exact (upholds child held).1

/-- A run on something that is as a grade asks, of functions that are so, is as the grade asks. -/
theorem IsRun.upholds {calls functions : List (Term α)} (run : IsRun method anchor calls functions)
    (isAnchor : anchor.kind = .member receiver method conditional)
    (upholdsAnchor : Upholds grade anchor.shape)
    (upholds : ∀ function ∈ functions, Upholds grade function.shape ∧
      isExpression function.shape = true) :
    ∀ call ∈ calls.head?, Upholds grade call.shape ∧ IsTight call.shape := by
  have tight := isTight_of_kind isAnchor rfl
  induction run with
  | first isCall =>
    rintro _ ⟨⟩
    obtain ⟨upholdsFunction, isExpression⟩ := upholds _ (.head _)
    exact ⟨isCall.upholds upholdsAnchor tight upholdsFunction isExpression,
      isTight_of_isCallOn isCall⟩
  | @next access function inner call calls functions _ isCall ih =>
    rintro _ ⟨⟩
    obtain ⟨upholdsFunction, isExpression⟩ := upholds _ (.head _)
    obtain ⟨upholdsInner, tightInner⟩ :=
      ih (fun other among => upholds other (.tail _ among)) inner rfl
    obtain ⟨-, allows⟩ := meets_member_iff.1 ((upholds_iff_of_kind isAnchor).1 upholdsAnchor).1
    have accessed : Upholds grade (node access (.member (some inner) method false)).shape :=
      upholds_node_iff.2 ⟨meets_member_iff.2 ⟨needs_some (.of_isTight tightInner (Nat.le_refl _)),
      allows⟩, by simpa [parts] using upholdsInner⟩
    exact ⟨isCall.upholds accessed rfl upholdsFunction isExpression, isTight_of_isCallOn isCall⟩

/-- The operands of a conjunction that is as a grade asks are expressions that are so. -/
theorem needs_conjuncts {term : Term α} (upholds : Upholds grade term.shape)
    (isExpression : isExpression term.shape = true) :
    ∀ operand ∈ term.conjuncts,
    (∀ term ∈ operand, Upholds grade term.shape ∧ Shape.isExpression term.shape = true) ∧
      (grade = .formed → operand.isSome) := by
  induction term using Term.induction with
  | step note form ih =>
    obtain ⟨meets, below⟩ := upholds_node_iff.1 upholds
    rw [conjuncts.eq_def]
    split
    · rename_i left right same
      cases same
      obtain ⟨ofLeft, ofRight⟩ := (meets_binary_iff (by decide)).1 meets
      have side {child : Option (Term α)} {least : Nat}
          (needs : Needs grade (Binds grade least) (child.map shape))
          (held : ∀ term ∈ child,
            term ∈ parts (.binary .and left right)) : ∀ operand ∈ conjunctsOf child,
            (∀ term ∈ operand, Upholds grade term.shape ∧ Shape.isExpression term.shape = true) ∧
              (grade = .formed → operand.isSome) := by
        cases child with
        | none => exact List.forall_mem_singleton.2 ⟨nofun, by simpa using needs.2⟩
        | some term => exact ih term (held term rfl) (below term (held term rfl)) (needs.1 _ rfl).1
      exact List.forall_mem_append.2
        ⟨side ofLeft (by simp +contextual [parts]), side ofRight (by simp +contextual [parts])⟩
    · rename_i inner same
      cases same
      obtain ⟨binds, present⟩ := meets_paren_iff.1 meets
      refine List.forall_mem_singleton.2
        ⟨fun term held => ⟨below term ?_, (binds _ ?_).1⟩, by simpa using present⟩
      · simp [parts, Option.mem_def.1 held]
      · simp [Option.mem_def.1 held]
    · refine List.forall_mem_singleton.2 ⟨?_, fun _ => rfl⟩
      rintro _ ⟨⟩
      exact ⟨upholds, isExpression⟩

end

variable {grade : Grade} {call hole inner callee : Outline} {arguments : List Outline}
  {place : Place} {name : String}

/-- A call with a name in the place of what one of its arguments passes is as a grade asks if the
call is. -/
theorem refilled_upholds {callee : Option Outline} (once : call.refs.Nodup)
    (allows : Allows grade name)
    (upholds : Upholds grade call.shape) (form : call.kind = .invoke callee arguments)
    (held : hole ∈ arguments)
    (passes : hole.kind = .argument .plain (some inner)) :
    Upholds grade (refill hole (.node place (.ident name)) call).shape ∧
      isExpression (refill hole (.node place (.ident name)) call).shape = true := by
  have isChild : hole ∈ call.children := by simp [children, form, parts, held]
  have upholdsName : Upholds grade (node place (.ident name)).shape :=
    upholds_node_iff.2 ⟨meets_ident_iff.2 allows, by simp [parts]⟩
  have passed :
      Upholds grade (node hole.note (.argument .plain (some (node place (.ident name))))).shape :=
    upholds_argument upholdsName rfl
  have replaced : Supplants grade
      (node hole.note (.argument .plain (some (node place (.ident name))))).shape hole.shape := by
    rw [shape_of_kind passes]
    exact supplants_argument passed
  refine ⟨(supplants_swap once (child_mem_subterms isChild) upholds replaced).upholds,
    isExpression_iff_sort.2 ?_⟩
  rw [sort_shape]
  exact sort_refill once form held

end Term

namespace LambdaCall

variable {grade : Grade} {split : LambdaCall} {tree : Tree} {param : Outline}

/-- The parameter has no type, is as a grade asks and has a name that the grade allows. -/
structure UpholdsParam (grade : Grade) (split : LambdaCall) (param : Outline) : Prop where
  /-- It has no type. -/
  isBare : isBareParam param.shape = true
  /-- It is as the grade asks. -/
  upholds : Upholds grade param.shape
  /-- Its name is allowed. -/
  allows : Allows grade split.lambda.name

/-- What is made of a layer is as a grade asks if the call and the body for the lambda are. -/
theorem IsFunctionOf.upholds {call hole body function : Outline}
    (isFunction : split.IsFunctionOf tree param call hole body function)
    (upholdsParam : UpholdsParam grade split param) (upholds : Upholds grade call.shape)
    (upholdsBody : Upholds grade body.shape ∧ isExpression body.shape = true) :
    Upholds grade function.shape ∧ isExpression function.shape = true := by
  rcases isFunction with ⟨form, -⟩ | isOver
  · obtain ⟨meets, below⟩ := (upholds_iff_of_kind form).1 upholds
    exact ⟨below function (by simp [parts]), ((meets_invoke_iff.1 meets).1.1 _ rfl).1⟩
  · refine isOver.isLambda.upholds upholdsParam.isBare upholdsParam.upholds (fun term held => ?_)
      fun _ => rfl
    rwa [← Option.some.inj held]

/-- The functions that are made of layers are as a grade asks if the outermost call is. -/
theorem Composes.upholds {model : Model} {referent : Referent} {layers : List Layer}
    {call : Outline} {functions : List Outline}
    (composes : split.Composes tree model referent param layers call functions)
    (upholdsParam : UpholdsParam grade split param) (once : call.refs.Nodup)
    (upholds : Upholds grade call.shape) :
    ∀ function ∈ functions, Upholds grade function.shape ∧ isExpression function.shape = true := by
  induction composes with
  | last isLayer _ isFunction =>
    refine List.forall_mem_singleton.2 (isFunction.upholds upholdsParam upholds ⟨upholds, ?_⟩)
    exact (isTight_of_kind isLayer.form rfl).isExpression
  | @snoc layer layers call hole inner function callee arguments functions place isLayer
    _ _ isFunction ih =>
    have isChild : inner ∈ call.subterms :=
      subterms_child (child_mem_subterms isLayer.isChild) isLayer.innerChild
    refine List.forall_mem_append.2
      ⟨ih (once.sublist (refs_sublist isChild)) (upholds_of_mem upholds isChild), ?_⟩
    exact List.forall_mem_singleton.2 (isFunction.upholds upholdsParam upholds
      (refilled_upholds once upholdsParam.allows upholds isLayer.form isLayer.held isLayer.passes))

variable {whole call anchor run : Outline} {receiver body : Option Outline}
  {calls functions : List Outline}

/-- A run with functions that are as a grade asks may stand where the call did of which it is
made. -/
theorem Stands.supplants (stands : split.Stands tree call receiver body param)
    (upholds : Upholds grade call.shape)
    (isAnchor : anchor.kind = .member receiver split.called.name split.called.conditional)
    (isRun : IsRun split.called.name anchor (run :: calls) functions.reverse)
    (each : ∀ function ∈ functions, Upholds grade function.shape ∧
      isExpression function.shape = true) :
    Supplants grade run.shape call.shape := by
  obtain ⟨access, argument, lambda, form, formAccess, -⟩ := stands.formed
  have isChild : access ∈ call.children := by simp [Term.children, form, parts]
  have upholdsAccess := upholds_of_mem upholds (child_mem_subterms isChild)
  have same : anchor.shape = access.shape := by
    rw [shape_of_kind isAnchor, shape_of_kind formAccess]
  obtain ⟨upholdsRun, tight⟩ := isRun.upholds isAnchor (same ▸ upholdsAccess)
    (fun function among => each function (List.mem_reverse.1 among)) run rfl
  exact tight.supplants (isTight_of_kind form rfl) upholdsRun

/-- The parameter of a call that is as a grade asks is so. -/
theorem Stands.upholdsParam {body : Outline}
    (stands : split.Stands tree call receiver (some body) param)
    (upholds : Upholds grade call.shape) : UpholdsParam grade split param := by
  obtain ⟨access, argument, lambda, form, -, formArgument, parenthesized, formLambda⟩ :=
    stands.formed
  obtain ⟨bodyInCall, paramInCall⟩ := stands.inside
  have heldArgument : argument ∈ call.children := by simp [Term.children, form, parts]
  have heldLambda : lambda ∈ argument.children := by simp [Term.children, formArgument, parts]
  have upholdsLambda :=
    upholds_of_mem upholds (mem_subterms_of_child heldArgument (child_mem_subterms heldLambda))
  have isBare : isBareParam param.shape = true :=
    ((upholds_iff_of_kind formLambda).1 upholdsLambda).1.isBareParam _ (.head _)
  have upholdsHere := upholds_of_mem upholds paramInCall
  obtain ⟨type, isParam⟩ := stands.exists_param
  obtain rfl : type = none := by
    rw [shape_of_kind isParam] at isBare
    cases type with
    | none => rfl
    | some type => cases isBare
  exact ⟨isBare, upholdsHere, meets_param_iff.1 ((upholds_iff_of_kind isParam).1 upholdsHere).1⟩

end LambdaCall

namespace Context

variable {context : Context} {grade : Grade} {whole : Outline} {ref : Ref}
  (program : context.tree.IsProgram whole) (isUnit : whole.kind.sort = .unit)
  (upholds : Upholds grade whole.shape) (member : ref ∈ whole.refs)

include program isUnit upholds member

/-- Splitting a filter leaves a program as a grade asks it to be. -/
theorem splitFilter_upholds :
    Attempt.Gives (context.splitFilter ref) (Offers (Tree.Upholds grade)) := by
  rw [splitFilter]
  split
  · exact Attempt.refuse_offers _
  · rename_i split operands found
    obtain ⟨other, isCall, isSplit⟩ := List.exists_of_findSome?_eq_some found
    obtain ⟨operands', isOperands, same⟩ := Option.map_eq_some_iff.1 isSplit
    obtain ⟨rfl, rfl⟩ := Prod.mk.inj same
    obtain ⟨call, within, -, receiver, body, param, stands⟩ :=
      stands_of_mem_lambdaCalls program member isCall
    obtain ⟨inner, after, anchor, run, calls, made, strips, shown, rfl, several, changed, isProgram,
      isAnchor, isRun, areMade, -⟩ := stands.splitOperands program within isOperands
    have upholdsCall := upholds_of_mem upholds within
    have standsBody := (StandsAll.append_iff.1 (StandsAll.append_iff.1 stands.standing).2.1).1
    obtain ⟨inner, left, right, rfl, isAnd⟩ := exists_of_two_le (by simpa using several)
    obtain ⟨body, rfl, exposed⟩ :=
      exposed_of_bareOf (bareOf_eq_of_stripParens standsBody shown strips)
    have upholdsParam := stands.upholdsParam upholdsCall
    have upholdsInner :=
      upholds_of_mem upholdsCall (subterms_trans stands.inside.1 exposed.mem_subterms)
    have isExpression : isExpression inner.shape = true := by
      rw [isExpression_iff_sort, sort_shape, isAnd]
      rfl
    have supplants := stands.supplants upholdsCall isAnchor isRun fun function among => by
      obtain ⟨operand, isOperand, isOver⟩ := exists_of_mem_right areMade among
      obtain ⟨each, present⟩ := needs_conjuncts upholdsInner isExpression operand isOperand
      exact isOver.isLambda.upholds upholdsParam.isBare upholdsParam.upholds each present
    exact offer_offers ⟨after, changed, .of_swap program isUnit upholds within isProgram supplants⟩

/-- So does splitting a projection. -/
theorem splitProjection_upholds :
    Attempt.Gives (context.splitProjection ref) (Offers (Tree.Upholds grade)) := by
  rw [splitProjection]
  split
  · exact Attempt.refuse_offers _
  · rename_i split layers found
    obtain ⟨other, isCall, isSplit⟩ := List.exists_of_findSome?_eq_some found
    obtain ⟨layers', isLayers, same⟩ := Option.map_eq_some_iff.1 isSplit
    obtain ⟨rfl, rfl⟩ := Prod.mk.inj same
    obtain ⟨call, within, -, receiver, body, param, stands⟩ :=
      stands_of_mem_lambdaCalls program member isCall
    obtain ⟨symbol, inner, after, anchor, run, calls, made, -, strips, finds, -, changed, isProgram,
      isAnchor, isRun, composes, -⟩ := stands.splitLayers program within isLayers
    have upholdsCall := upholds_of_mem upholds within
    have standsBody := (StandsAll.append_iff.1 (StandsAll.append_iff.1 stands.standing).2.1).1
    have isBare : bareOf body = some inner :=
      bareOf_eq_of_stripParens standsBody (fun term held => by
      obtain rfl := Option.some.inj held
      exact (finds.stands.each inner (.head _)).shown) strips
    obtain ⟨body, rfl, exposed⟩ := exposed_of_bareOf isBare
    have inner_mem := subterms_trans stands.inside.1 exposed.mem_subterms
    have supplants := stands.supplants upholdsCall isAnchor isRun
      (composes.upholds (stands.upholdsParam upholdsCall)
      (program.stands.subterm (subterms_trans within inner_mem)).once
      (upholds_of_mem upholdsCall inner_mem))
    exact offer_offers ⟨after, changed, .of_swap program isUnit upholds within isProgram supplants⟩

end Context

end Refactory
