import Refactory.Proofs.Tree.Placing

/-!
# What is around the code of statements

In a program that was read from a text, all code stands in statements: around the statements are
only the nodes that hold them and those that declare the methods (`Term.Sheltered`). So whoever
ascends from an expression in a statement through expressions does not come out of the statement
(`Term.Ascends.within`). A program stays one as long as nothing but statements comes in the place of
a statement (`Term.Sheltered.swap`).
-/
namespace Refactory

namespace Kind

variable {one many one' many' : Type}

/-- The kinds of what holds methods and statements and of what declares a method. -/
def isFrame : Kind one many → Bool
  | unit _ | method _ _ _ _ | param _ _ | typeRef _ _ _ => true
  | _ => false

/-- An expression is neither a statement nor around statements. -/
theorem not_isExpression {kind : Kind one many} (sheltered : kind.isStatement ∨ kind.isFrame) :
    kind.isExpression = false := by
  cases kind <;> simp [isStatement, isFrame, isExpression] at sheltered ⊢

theorem isFrame_of_skeleton {kind : Kind one many} {other : Kind one' many'}
    (same : kind.skeleton = other.skeleton) : kind.isFrame = other.isFrame :=
  eq_of_skeleton (fun kind => kind.isFrame) (fun kind => by cases kind <;> rfl) same

theorem isExpression_of_skeleton {kind : Kind one many} {other : Kind one' many'}
    (same : kind.skeleton = other.skeleton) : kind.isExpression = other.isExpression :=
  eq_of_skeleton (fun kind => kind.isExpression) (fun kind => by cases kind <;> rfl) same

end Kind

namespace Term

/-- All code of a term stands in statements. -/
inductive Sheltered : Outline → Prop
  /-- A statement. -/
  | statement {term : Outline} (isStatement : term.kind.isStatement) : Sheltered term
  /-- What is around statements, or declares a method. -/
  | frame {term : Outline} (isFrame : term.kind.isFrame)
      (children : ∀ child ∈ term.children, Sheltered child) :
      Sheltered term

namespace Sheltered

variable {whole part new : Outline}

theorem sorts (sheltered : Sheltered whole) : whole.kind.isStatement ∨ whole.kind.isFrame := by
  cases sheltered with
  | statement isStatement => exact .inl isStatement
  | frame isFrame _ => exact .inr isFrame

/-- A node of other children is sheltered when the children that a node around statements gets
are. -/
theorem withChildren (sheltered : Sheltered whole) (same : new.kind.skeleton = whole.kind.skeleton)
    (children : whole.kind.isFrame → (∀ child ∈ whole.children, Sheltered child) →
      ∀ child ∈ new.children, Sheltered child) :
    Sheltered new := by
  cases sheltered with
  | statement isStatement => exact .statement (Kind.isStatement_of_skeleton same ▸ isStatement)
  | frame isFrame all =>
    exact .frame (Kind.isFrame_of_skeleton same ▸ isFrame) (children isFrame all)

/-- Every part is sheltered or below a statement. -/
theorem subterm (sheltered : Sheltered whole) (within : part ∈ whole.subterms) :
    Sheltered part ∨ ∃ statement ∈ whole.subterms, statement.kind.isStatement ∧
    part ∈ statement.subterms := by
  induction sheltered with
  | @statement term isStatement => exact .inr ⟨term, self_mem_subterms term, isStatement, within⟩
  | @frame term isFrame children ih =>
    rw [subterms_eq] at within
    rcases List.mem_cons.1 within with rfl | below
    · exact .inl (.frame isFrame children)
    · obtain ⟨child, held, inside⟩ := List.mem_flatMap.1 below
      refine (ih child held inside).imp_right ?_
      rintro ⟨statement, isBelow, isStatement, isPart⟩
      exact ⟨statement, mem_subterms_of_child held isBelow, isStatement, isPart⟩

/-- All code still stands in statements when something comes in the place of a part, as long as what
comes in the place of a part that was sheltered is sheltered. -/
theorem swap (sheltered : Sheltered whole) (once : whole.refs.Nodup)
    (within : part ∈ whole.subterms)
    (comes : Sheltered part → Sheltered new) : Sheltered (Term.swap part.ref new whole) := by
  have below {term : Outline} (sheltered : Sheltered term) (inside : term ∈ whole.subterms) :
      Sheltered (Term.swap part.ref new term) := by
    induction term using Term.induction with
    | step place form ih =>
      by_cases here : place.ref = part.ref
      · obtain rfl : (.node place form : Outline) = part := subterm_unique once inside within here
        rw [swap_self]
        exact comes sheltered
      · rw [swap_node, if_neg here]
        refine sheltered.withChildren (skeleton_mapChildren _ _) fun _ children child held => ?_
        obtain ⟨old, isOld, rfl⟩ :=
          List.mem_map.1 (show child ∈ (parts form).map (Term.swap part.ref new) by
          rwa [← parts_mapChildren])
        exact ih old isOld (children old isOld) (subterms_child inside isOld)
  exact below sheltered (self_mem_subterms whole)

end Sheltered

/-- From an expression one comes to a term around it through expressions only. -/
inductive Ascends : Outline → Outline → Prop
  /-- No step. -/
  | refl {term : Outline} (isExpression : term.kind.isExpression) : Ascends term term
  /-- A step to what holds the expression. -/
  | step {low holder high : Outline} (isExpression : low.kind.isExpression)
      (held : low ∈ holder.children)
      (ascends : Ascends holder high) : Ascends low high

namespace Ascends

variable {low high : Outline}

theorem mem_subterms (ascends : Ascends low high) : low ∈ high.subterms := by
  induction ascends with
  | refl => exact self_mem_subterms _
  | step _ held _ ih => exact subterms_child ih held

theorem isExpression_high (ascends : Ascends low high) : high.kind.isExpression := by
  induction ascends with
  | refl isExpression => exact isExpression
  | step _ _ _ ih => exact ih

/-- Ascending from an expression does not lead out of what is no expression. -/
theorem within {tree : Tree} {whole part : Outline} (ascends : Ascends low high)
    (stands : tree.Stands whole) (isPart : part ∈ whole.subterms) (isHigh : high ∈ whole.subterms)
    (other : part.kind.isExpression = false) (inside : low ∈ part.subterms) :
    high ∈ part.subterms := by
  induction ascends with
  | refl => exact inside
  | @step low holder high isExpression held ascends ih =>
    refine ih isHigh ?_
    have isHolder := subterms_trans isHigh ascends.mem_subterms
    rcases exists_holder inside with rfl | ⟨holder', below, held'⟩
    · rw [isExpression] at other
      cases other
    · have isHolder' := subterms_trans isPart below
      obtain rfl := subterm_unique stands.once isHolder isHolder'
        ((stands.parent isHolder held).symm.trans (stands.parent isHolder' held'))
      exact below

end Ascends

end Term

end Refactory
