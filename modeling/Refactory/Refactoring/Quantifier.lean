import Refactory.Attempt
import Refactory.Code.Call

/-!
# Inverting quantifiers

`All` and `Any` are dual: a predicate holds of all elements exactly when its negation does not hold
of any. Inverting a quantifier replaces it by the other one and negates both the predicate and the
result. A predicate is negated without growing: a negation is dropped, a comparison becomes its
opposite, and anything else must need no parentheses after a negation.
-/
namespace Refactory

/-- A quantifier over the elements of a collection. -/
inductive Quantifier where
  /-- All elements satisfy the predicate. -/
  | all
  /-- Some element satisfies the predicate. -/
  | any
deriving DecidableEq, Inhabited

namespace Quantifier

/-- The name of the method. -/
def method : Quantifier → String
  | all => "All"
  | any => "Any"

/-- The other quantifier. -/
def dual : Quantifier → Quantifier
  | all => any
  | any => all

/-- The quantifier of a method. -/
def ofMethod? (name : String) : Option Quantifier := [all, any].find? (·.method == name)

/-- The dual of the dual is the quantifier itself. -/
theorem dual_dual (quantifier : Quantifier) : quantifier.dual.dual = quantifier := by
  cases quantifier <;> rfl

end Quantifier

/-- A quantifier call that can be inverted. -/
structure QuantifierCall where
  /-- The call. -/
  call : Ref
  /-- The quantifier. -/
  quantifier : Quantifier

namespace Tree

/-- Whether an expression can be negated without growing. -/
def isNegatable (tree : Tree) (ref : Ref) : Bool :=
  match tree.kind ref with
  | .unary op _ => op == .not
  | .binary op _ _ => op.isComparison
  | .ident _ | .member _ _ _ | .invoke _ _ => true
  | _ => false

/-- The quantifier call at a node, if it has a simple lambda for its predicate which can be
negated. -/
def quantifierCall? (tree : Tree) (call : Ref) : Option QuantifierCall := do
  let called ← tree.calledMember? call
  let quantifier ← Quantifier.ofMethod? called.name
  let lambda ← tree.simpleLambda? (← tree.singleArgument? call)
  guard (tree.isNegatable lambda.body)
  return ⟨call, quantifier⟩

/-- Whether a node is a logical negation. -/
def isNegation (tree : Tree) (ref : Ref) : Bool :=
  match tree.kind ref with
  | .unary .not _ => true
  | _ => false

/-- The outermost parentheses around an expression, given the nodes above it. -/
def aroundParens (tree : Tree) : Ref → List Ref → Ref
  | ref, [] => ref
  | ref, parent :: above =>
    match tree.kind parent with
    | .paren _ => aroundParens tree parent above
    | _ => ref

/-- Whether a negation of an expression needs parentheses to stand in its place. -/
def needsParensNegated (tree : Tree) (ref : Ref) : Bool :=
  match tree.parent ref with
  | none => false
  | parent =>
    match tree.kind parent with
    | .member receiver _ _ | .index receiver _ => receiver == ref
    | .invoke callee _ => callee == ref
    | _ => false

end Tree

namespace QuantifierCall

/-- The negation of the body of a predicate. A dropped negation loses one pair of parentheses with
it. -/
def negated (body : Ref) : Change Ref := do
  let tree ← get
  match tree.kind body with
  | .unary .not operand =>
    match tree.kind operand with
    | .paren inner => return inner
    | _ => return operand
  | .binary op left right =>
    let opposite ← Change.require op.negated? (.noOpposite op)
    Tree.alloc (.binary opposite left right) (tree.span body)
  | .ident _ | .member _ _ _ | .invoke _ _ => Build.unary .not body
  | kind => throw (.violation (.notNegatable kind))

/-- Negates a call where it stands. A negation around it, maybe with parentheses between, is
removed; else one is added. -/
def negateCall (call : Ref) : Change Unit := do
  let tree ← get
  let outer := tree.aroundParens call (tree.ancestors call)
  let above := tree.parent outer
  if above.isSome && tree.isNegation above then
    Change.put (tree.parent above) above call
  else
    let holder := tree.parent call
    let negated ← Build.unary .not call
    if tree.needsParensNegated call then
      Change.put holder call (← Build.paren negated)
    else
      Change.put holder call negated

/-- Replaces the quantifier by the other one. -/
def invert (call : QuantifierCall) : Change Unit := do
  let tree ← get
  let called ← Change.require (tree.calledMember? call.call) .lostMember
  let lambda ← Change.require (tree.singleArgument? call.call) .lostPredicate
  match tree.kind lambda with
  | .lambda params body parenthesized =>
    let body ← negated body
    Tree.setKind lambda (.lambda params body parenthesized)
    Tree.setKind called.access
      (.member called.receiver call.quantifier.dual.method called.conditional)
    negateCall call.call
  | _ => throw (.violation .predicateNotLambda)

end QuantifierCall

/-- Inverts the first quantifier in the statement of a node that can be inverted. -/
def Context.invertQuantifier (context : Context) (ref : Ref) : Attempt (Option Action) := do
  let tree := context.tree
  match (tree.descendants (tree.statementOf ref)).findSome? tree.quantifierCall? with
  | none => Attempt.refuse .noQuantifier
  | some call =>
    let title := "Replace " ++ call.quantifier.method ++ " with " ++ call.quantifier.dual.method
    context.offer .invertQuantifier title tree call.invert

end Refactory
