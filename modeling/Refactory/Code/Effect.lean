import Refactory.Tree.Walk

/-!
# Statements and their effects

Which statement a node belongs to, whether evaluating a node may have an observable effect, whether
the value of an expression is written where it stands, and whether an expression is evaluated just
once and before all effects when its statement runs.
-/
namespace Refactory

namespace Tree

/-- The nearest statement around a node or at it, or the node itself where there is none. -/
def statementOf (tree : Tree) (ref : Ref) : Ref :=
  ((tree.lineage ref).find? fun ref => (tree.kind ref).isStatement).getD ref

/-- A statement list belongs to a block or to the unit. -/
def isStatementList (tree : Tree) (ref : Ref) : Bool :=
  match tree.kind ref with
  | .block _ | .unit _ => true
  | _ => false

/-- Evaluating a call, an assignment, an increment or a decrement may have an observable effect. -/
def isEffect (tree : Tree) (ref : Ref) : Bool :=
  match tree.kind ref with
  | .invoke _ _ | .assign _ _ _ => true
  | .unary op _ => op.writesOperand
  | _ => false

/-- Evaluating a node may have an observable effect when something at it or below it may. -/
def hasEffects (tree : Tree) (ref : Ref) : Bool := (tree.descendants ref).any tree.isEffect

/-- An expression is written where it stands when it is assigned to, incremented, decremented or
passed for writing. -/
def isWritten (tree : Tree) (ref : Ref) : Bool :=
  match tree.parent ref with
  | none => false
  | parent =>
    match tree.kind parent with
    | .assign _ target _ => target == ref
    | .unary op _ => op.writesOperand
    | .argument modifier _ => modifier.isWritable
    | _ => false

/-- Whether the part `child` of `ancestor` may be evaluated never or more than once when `ancestor`
is evaluated. -/
def isDeferredIn (tree : Tree) (child ancestor : Ref) : Bool :=
  match tree.kind ancestor with
  | .lambda _ _ _ | .whileLoop _ _ => true
  | .ifStmt condition _ _ => child != condition
  | .forLoop declaration _ _ _ _ => child != declaration
  | .forEach _ _ collection _ => child != collection
  | .binary op _ right => op.shortCircuits && right == child
  | .invoke callee _ =>
    match tree.kind child, tree.kind callee with
    | .argument _ _, .member _ _ true => true
    | _, _ => false
  | _ => false

/-- Whether something that is evaluated before the part `child` of `ancestor` may have an observable
effect. -/
def hasEffectsBefore (tree : Tree) (child ancestor : Ref) : Bool :=
  ((tree.children ancestor).takeWhile (· != child)).any tree.hasEffects

/-- Whether a node is evaluated just once and before all effects in the statement that is met on
the way up, given the nodes on that way. -/
def isEvaluatedFirstAlong (tree : Tree) (statement : Ref) : Ref → List Ref → Bool
  | _, [] => false
  | child, ancestor :: above =>
    !tree.isDeferredIn child ancestor && !tree.hasEffectsBefore child ancestor &&
      (ancestor == statement || isEvaluatedFirstAlong tree statement ancestor above)

/-- Whether an expression is evaluated exactly once whenever the statement around it runs, and
nothing with an observable effect before it. -/
def isEvaluatedFirst (tree : Tree) (ref statement : Ref) : Bool :=
  tree.isEvaluatedFirstAlong statement ref (tree.ancestors ref)

end Tree

end Refactory
