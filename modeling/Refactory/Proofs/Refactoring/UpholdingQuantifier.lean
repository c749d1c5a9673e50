import Refactory.Proofs.Refactoring.UpholdingSplit

/-!
# Quantifiers and grades

Inverting a quantifier leaves a program as a grade asks it to be, if no receiver holds together too
loosely (`Context.invertQuantifier_upholds`). The body of the predicate becomes an expression
(`Negates.upholds`), so that the call of the other quantifier may stand where the call did
(`Dualizes.supplants`); and a call and its negation fit in the places of each other
(`NegatesCall.serves`). Only a negation that comes to be a receiver without parentheses, or the
operand of an operator that follows it, holds together too loosely.
-/
namespace Refactory

open Term Shape Refactory.Tree

variable {grade : Grade} {quantifier : Quantifier}
  {term dual target new body access argument lambda param : Outline}
  {receiver inner : Option Outline} {conditional parenthesized : Bool}

/-- What an expression becomes when it is negated is an expression. -/
theorem Negates.upholds (negates : Negates body inner) (upholds : Upholds grade body.shape) :
    (∀ negated ∈ inner, Upholds grade negated.shape ∧ isExpression negated.shape = true) ∧
      (grade = .formed → inner.isSome = true) := by
  cases negates with
  | @drop operand form =>
    obtain ⟨meets, below⟩ := (upholds_iff_of_kind form).1 upholds
    obtain ⟨binds, present⟩ := needs_map_iff.1 (meets_not_iff.1 meets)
    exact ⟨fun negated held =>
      ⟨below negated (by simp [parts, Option.mem_def.1 held]), (binds negated held).1⟩, present⟩
  | @unwrap wrapped _ form formWrapped =>
    obtain ⟨-, below⟩ := (upholds_iff_of_kind form).1 upholds
    obtain ⟨meets, inside⟩ := (upholds_iff_of_kind formWrapped).1 (below wrapped (by simp [parts]))
    obtain ⟨binds, present⟩ := needs_map_iff.1 (meets_paren_iff.1 meets)
    exact ⟨fun negated held =>
      ⟨inside negated (by simp [parts, Option.mem_def.1 held]), (binds negated held).1⟩, present⟩
  | @compare op opposite left right place form opposed =>
    -- The operators hold their operands together alike.
    have alike : op ≠ .coalesce ∧ opposite ≠ .coalesce ∧ opposite.precedence = op.precedence := by
      revert opposed
      cases op <;> cases opposite <;> decide
    obtain ⟨isLeft, isLeftOpposite, same⟩ := alike
    obtain ⟨meets, below⟩ := (upholds_iff_of_kind form).1 upholds
    refine ⟨?_, fun _ => rfl⟩
    rintro _ ⟨⟩
    refine ⟨upholds_node_iff.2 ⟨(meets_binary_iff isLeftOpposite).2 ?_, below⟩, rfl⟩
    rw [same]
    exact (meets_binary_iff isLeft).1 meets
  | add place reading =>
    have tight : IsTight body.shape := by
      rcases body with ⟨note, form⟩
      cases form <;> first | rfl | cases reading
    refine ⟨?_, fun _ => rfl⟩
    rintro _ ⟨⟩
    exact ⟨upholds_not upholds (.of_isTight tight (by decide)), rfl⟩

/-- A call of a quantifier is as a grade asks when its receiver is and the body of its predicate,
whichever quantifier it is. -/
theorem Quantifies.upholds_iff
    (quantifies : Quantifies quantifier term access argument lambda param receiver inner conditional
    parenthesized) (bare : isBareParam param.shape = true) : Upholds grade term.shape ↔
      (Needs grade (Binds grade postfixLevel) (receiver.map Term.shape) ∧
        ∀ part ∈ receiver, Upholds grade part.shape) ∧ Needs grade
        (fun body => Shape.isBlock body = true ∨ isExpression body = true) (inner.map Term.shape) ∧
          Upholds grade param.shape ∧ ∀ part ∈ inner, Upholds grade part.shape := by
  have ofAccess : Upholds grade access.shape ↔
      Needs grade (Binds grade postfixLevel) (receiver.map Term.shape) ∧
        ∀ part ∈ receiver, Upholds grade part.shape := by
    have allows : Allows grade quantifier.method := fun _ => by cases quantifier <;> decide
    rw [upholds_iff_of_kind quantifies.formAccess]
    exact and_congr (meets_member_iff.trans (and_iff_left allows)) (by simp [parts])
  have ofLambda : Upholds grade lambda.shape ↔
      Needs grade (fun body => Shape.isBlock body = true ∨ isExpression body = true)
        (inner.map Term.shape) ∧
        Upholds grade param.shape ∧ ∀ part ∈ inner, Upholds grade part.shape := by
    rw [upholds_iff_of_kind quantifies.formLambda]
    exact and_congr (meets_lambda_iff bare) (by simp [parts])
  have ofArgument : Upholds grade argument.shape ↔ Upholds grade lambda.shape := by
    rw [upholds_iff_of_kind quantifies.formArgument]
    refine (and_iff_right (meets_argument_iff.2 (needs_some (.of_isExpression ?_)))).trans
      (by simp [parts])
    rw [shape_of_kind quantifies.formLambda]
    rfl
  have ofCall : Upholds grade term.shape ↔
      Upholds grade access.shape ∧ Upholds grade argument.shape := by
    rw [upholds_iff_of_kind quantifies.form]
    refine (and_iff_right
      (meets_invoke_iff.2 ⟨needs_some ?_, List.forall_mem_singleton.2 ?_⟩)).trans (by simp [parts])
    · exact .of_isTight (isTight_of_kind quantifies.formAccess rfl) (Nat.le_refl _)
    · rw [shape_of_kind quantifies.formArgument]
      rfl
  rw [ofCall, ofAccess, ofArgument, ofLambda]

/-- The call of the other quantifier may stand where the call did. -/
theorem Dualizes.supplants (dualizes : Dualizes quantifier receiver term dual)
    (upholds : Upholds grade term.shape) :
    Supplants grade dual.shape term.shape := by
  cases dualizes with
  | @intro access argument lambda access' argument' lambda' param body inner _ _ same before after
    negates =>
    have isArgument : argument ∈ term.children := by simp [Term.children, before.form, parts]
    have isLambda : lambda ∈ argument.children := by
      simp [Term.children, before.formArgument, parts]
    have inside := mem_subterms_of_child isArgument (child_mem_subterms isLambda)
    have bare : isBareParam param.shape = true := ((upholds_iff_of_kind before.formLambda).1
      (upholds_of_mem upholds inside)).1.isBareParam _ (by simp)
    obtain ⟨ofReceiver, -, upholdsParam, upholdsBody⟩ := (before.upholds_iff bare).1 upholds
    obtain ⟨each, present⟩ := negates.upholds (upholdsBody body rfl)
    have upholdsDual : Upholds grade dual.shape := by
      refine (after.upholds_iff bare).2 ⟨ofReceiver, needs_map_iff.2
        ⟨fun negated held => ?_, present⟩, upholdsParam, fun negated held => (each negated held).1⟩
      exact .inr (each negated held).2
    exact (isTight_of_kind after.form rfl).supplants (isTight_of_kind before.form rfl) upholdsDual

/-- A call and its negation are as a grade asks if the call is, and they fit in the places of each
other. -/
theorem NegatesCall.serves (negates : NegatesCall dual target new) (tight : IsTight dual.shape)
    (upholds : Upholds grade dual.shape) :
    Upholds grade new.shape ∧ Serves grade new.shape target.shape := by
  have negation (place : Place) : Upholds grade (Term.node place (.unary .not (some dual))).shape :=
    upholds_not upholds (.of_isTight tight (by decide))
  cases negates with
  | @remove around _ wraps form =>
    rw [shape_of_kind form]
    exact ⟨upholds, tight.isCompact.serves grade (.not _ _)⟩
  | add place =>
    refine ⟨negation place, ?_⟩
    rw [shape_node]
    exact IsCompact.serves grade (.not _ _) tight.isCompact
  | wrap place outer =>
    exact ⟨upholds_paren (negation place) rfl,
      IsCompact.serves grade (IsTight.isCompact rfl) tight.isCompact⟩

/-- Inverting a quantifier leaves a program as a grade asks it to be, if no receiver holds together
too loosely. -/
theorem Context.invertQuantifier_upholds {context : Context} {whole : Outline} {ref : Ref}
    (program : context.tree.IsProgram whole) (isUnit : whole.kind.sort = .unit)
    (upholds : Shape.Upholds grade whole.shape) (member : ref ∈ whole.refs) :
    Attempt.Gives (context.invertQuantifier ref) (Offers (Tree.UpholdsIfTight grade)) := by
  refine (invertQuantifier_offers program member).mono fun offered offers action isOffered => ?_
  obtain ⟨call, receiver, term, middle, target, new, -, -, -, inverts⟩ := offers action isOffered
  obtain ⟨within, ⟨dual, dualizes, rfl, -, negates⟩, changed, -, isMiddle, places⟩ := inverts
  have once := program.stands.once
  have onceMiddle := isMiddle.stands.once
  have supplants := dualizes.supplants (upholds_of_mem upholds within)
  have swapped := supplants_swap once within upholds supplants
  have tight : IsTight dual.shape := by
    obtain ⟨-, -, after, -⟩ := dualizes
    exact isTight_of_kind after.form rfl
  obtain ⟨upholdsNew, serves⟩ := negates.serves tight supplants.upholds
  have isUnitMiddle : (Term.swap term.ref dual whole).kind.sort = .unit :=
    (sort_of_serves swapped.serves).trans isUnit
  refine ⟨_, places.program, (sort_swap onceMiddle places.within ?_).trans isUnitMiddle,
    fun notLoose => ?_⟩
  · exact sort_of_serves serves
  · refine (upholds_swap onceMiddle places.within swapped.upholds upholdsNew serves
      fun formed holder inside held => ?_).1
    exact all_iff_subterms.1 (all_map_iff.1 (notLoose formed))
      _ (swap_mem_subterms onceMiddle inside (child_mem_subterms held))

end Refactory
