import Refactory.Refactoring.Quantifier
import Refactory.Proofs.Tree.Forms
import Refactory.Proofs.Tree.Swap

/-!
# Interpretations of code

An interpretation gives a meaning to every term from below: the meaning of a node is some function
of the meanings of its children. The functions are arbitrary but for a few laws on parentheses,
logical negation, comparisons, lambdas of one parameter, and quantifiers over receivers that are not
null. A meaning is a function of an environment, so that the body of a lambda can be read once for
each element.

A part may be exchanged for another one of the same meaning (`Interpretation.meaning_swap_congr`).
-/
namespace Refactory

open Term Refactory.Tree

/-- What a quantifier says of some elements. -/
def Quantifier.Says {Element : Type} (quantifier : Quantifier)
    (elements predicate : Element → Prop) : Prop :=
  match quantifier with
  | all => ∀ element, elements element → predicate element
  | any => ∃ element, elements element ∧ predicate element

/-- The dual of a quantifier says of the opposite predicate the opposite. -/
theorem Quantifier.says_dual {Element : Type} (quantifier : Quantifier)
    {elements predicate opposite : Element → Prop}
    (opposed : ∀ element, opposite element ↔ ¬ predicate element) :
    quantifier.dual.Says elements opposite ↔ ¬ quantifier.Says elements predicate := by
  cases quantifier with
  | all => simp [dual, Says, opposed]
  | any => simp [dual, Says, opposed]

/-- An interpretation of code over environments, values and the elements of collections. -/
structure Interpretation (Env Value Element : Type) where
  /-- The meaning of a node from the meanings of its children. -/
  node : Kind (Option (Env → Value)) (List (Env → Value)) → Env → Value
  /-- What a child that is absent means. -/
  absent : Env → Value
  /-- The value of a truth. -/
  ofProp : Prop → Value
  /-- The values that are true. -/
  Holds : Value → Prop
  /-- The values that are null. -/
  IsNull : Value → Prop
  /-- The elements of a value. -/
  Contains : Value → Element → Prop
  /-- What a function gives for an element. -/
  apply : Value → Element → Value
  /-- The environment in which a parameter stands for an element. -/
  bind : (Env → Value) → Env → Element → Env
  /-- The value of a truth is true when the truth is one. -/
  holds_ofProp {truth : Prop} : Holds (ofProp truth) ↔ truth
  /-- Parentheses mean what is inside them. -/
  paren (inner : Option (Env → Value)) (env : Env) : node (.paren inner) env = inner.getD absent env
  /-- Logical negation. -/
  not (operand : Option (Env → Value)) (env : Env) :
    node (.unary .not operand) env = ofProp (¬ Holds (operand.getD absent env))
  /-- Of two opposite comparisons one holds exactly when the other does not. -/
  opposite {op other : BinaryOp} (opposed : op.negated? = some other)
    (left right : Option (Env → Value)) (env : Env) :
    Holds (node (.binary other left right) env) ↔ ¬ Holds (node (.binary op left right) env)
  /-- A lambda of one parameter gives its body where the parameter stands for the element. -/
  lambda (param : Env → Value) (body : Option (Env → Value)) (parenthesized : Bool) (env : Env)
    (element : Element) :
    apply (node (.lambda [param] body parenthesized) env) element
      = body.getD absent (bind param env element)
  /-- A quantifier says of the elements of its receiver what the predicate says of each. -/
  quantifier (quantifier : Quantifier) (receiver : Option (Env → Value)) (conditional : Bool)
    (predicate : Env → Value) (env : Env) (nonNull : ¬ IsNull (receiver.getD absent env)) :
    node (.invoke (some (node (.member receiver quantifier.method conditional)))
      [node (.argument .plain (some predicate))]) env = ofProp (quantifier.Says
        (Contains (receiver.getD absent env)) fun element => Holds (apply (predicate env) element))

namespace Interpretation

variable {Env Value Element α : Type} (meanings : Interpretation Env Value Element)

/-- The meaning of a term. -/
def meaning (term : Term α) : Env → Value := term.fold meanings.node

/-- The meaning of a child, or of its absence. -/
def meaning? (child : Option (Term α)) : Env → Value :=
    (child.map meanings.meaning).getD meanings.absent

@[simp] theorem meaning?_some
    (term : Term α) : meanings.meaning? (some term) = meanings.meaning term := rfl

/-- The meaning of a node comes from the meanings of its children. -/
theorem meaning_eq (term : Term α) :
    meanings.meaning term = meanings.node (readChildren meanings.meaning term.kind) := by
  rcases term with ⟨note, form⟩
  exact fold_node meanings.node note form

theorem meaning_of_kind {term : Term α} {form : Form α} (same : term.kind = form) :
    meanings.meaning term = meanings.node (readChildren meanings.meaning form) :=
    same ▸ meanings.meaning_eq term

/-- Parentheses are not seen. -/
theorem meaning_of_paren {term : Term α} {inner : Option (Term α)}
    (form : term.kind = .paren inner) :
    meanings.meaning term = meanings.meaning? inner := by
  rw [meanings.meaning_of_kind form]
  exact funext fun env => meanings.paren _ env

/-- A negation holds where what it negates does not. -/
theorem meaning_of_not {term : Term α} {operand : Option (Term α)}
    (form : term.kind = .unary .not operand) (env : Env) :
    meanings.meaning term env =
    meanings.ofProp (¬ meanings.Holds (meanings.meaning? operand env)) := by
  rw [meanings.meaning_of_kind form]
  exact meanings.not _ env

variable {meanings}

/-- Parts of the same meaning in one place make wholes of the same meaning. -/
theorem meaning_swap_congr {left right : Outline}
    (same : meanings.meaning left = meanings.meaning right)
    (target : Ref) (whole : Outline) :
    meanings.meaning (swap target left whole) = meanings.meaning (swap target right whole) := by
  induction whole using Term.induction with
  | step place form ih =>
    rw [swap_node, swap_node]
    split
    · exact same
    · rw [meanings.meaning_eq, meanings.meaning_eq (.node _ _)]
      refine congrArg meanings.node ?_
      rw [Term.kind, Term.kind, readChildren_mapChildren, readChildren_mapChildren]
      exact readChildren_congr ih

/-- The meaning of the code at a node of a tree. -/
def meaningAt (meanings : Interpretation Env Value Element) (tree : Tree) : Ref → Env → Value
  | none => meanings.absent
  | some number => meanings.meaning (tree.outline (some number))

/-- The code at a node where a term stands means what the term means. -/
theorem meaningAt_of_stands {tree : Tree} {term : Outline} (stands : tree.Stands term) :
    meanings.meaningAt tree term.ref = meanings.meaning term := by
  obtain ⟨number, -, place⟩ := stands.hasRef (ref_mem_refs term)
  rw [place, meaningAt, ← place, stands.outline]

theorem meaningAt_of_standsAll {tree : Tree} {child : Option Outline}
    (all : tree.StandsAll child.toList) :
    meanings.meaningAt tree (refOf child) = meanings.meaning? child := by
  cases child with
  | none => rfl
  | some term => exact meaningAt_of_stands (StandsAll.singleton_iff.1 all)

end Interpretation

end Refactory
