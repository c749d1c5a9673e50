import Refactory.Attempt
import Refactory.Code.Composition

/-!
# Splitting calls

A single call of a combinator becomes a run of calls: a filter with a conjunction becomes a filter
for each operand, and a projection with a composition of calls becomes a projection for each call.
A projection that only passes its parameter to a named function becomes the name of the function.
-/
namespace Refactory

/-- A call of a combinator with a simple lambda for its argument. -/
structure LambdaCall where
  /-- The call. -/
  call : Ref
  /-- The member that is called. -/
  called : CalledMember
  /-- The lambda. -/
  lambda : SimpleLambda

namespace Tree

/-- The parts of a call of a member with a simple lambda for its only argument. -/
def lambdaCall? (tree : Tree) (call : Ref) : Option LambdaCall := do
  let lambda ← tree.simpleLambda? (← tree.singleArgument? call)
  return ⟨call, ← tree.calledMember? call, lambda⟩

/-- The operands that a filter can be split into, if there are at least two. -/
def splitOperands? (tree : Tree) (filter : LambdaCall) : Option (List Ref) :=
  some (tree.conjuncts filter.lambda.body) |>.filter (2 ≤ ·.length)

/-- The layers that a projection can be split into, outermost first. -/
def splitLayers? (tree : Tree) (model : Model) (projection : LambdaCall) : Option (List Layer) := do
  let symbol ← model.declaredSymbol projection.lambda.param
  tree.layers? model (.symbol symbol) projection.lambda.body

/-- The function that a layer only passes its hole to, if a stable path names it. -/
def passedTo? (tree : Tree) (layer : Layer) : Option Ref :=
  match tree.kind layer.call with
  | .invoke callee arguments =>
    if tree.items arguments = [layer.hole] && tree.isStablePath callee then some callee else none
  | _ => none

end Tree

namespace LambdaCall

/-- Calls the method on a receiver once for each function, each time on the result of the call
before. Only the first call can be skipped on null. -/
def callEach (method : String) : (receiver : Ref) → (conditional : Bool) → List (Change Ref) →
    Change Ref
  | receiver, _, [] => return receiver
  | receiver, conditional, function :: functions => do
    let function ← function
    let access ← Build.member receiver method conditional
    let call ← Build.invoke access [function]
    callEach method call false functions

/-- Puts a run of calls, one for each function, in the place of the call. -/
def splitInto (split : LambdaCall) (functions : List (Change Ref)) : Change Unit := do
  let parent := (← get).parent split.call
  let called := split.called
  let run ← callEach called.name called.receiver called.conditional functions
  Change.put parent split.call run

/-- A lambda like the one of the call with another body. -/
def lambdaOver (split : LambdaCall) (body : Ref) : Edit Ref := do
  let param ← Build.copyOfParam split.lambda.param
  Build.lambda param body split.lambda.parenthesized

/-- The function of a layer: a named function if the layer passes nothing else to it, or a lambda
over the call, whose parameter takes the place of the layer inside. -/
def layerFunction (split : LambdaCall) (innermost : Bool) (layer : Layer) : Change Ref := do
  match (← get).passedTo? layer with
  | some named => return named
  | none =>
    unless innermost do
      match (← get).kind layer.hole with
      | .argument modifier _ =>
        let value ← Build.ident split.lambda.name
        Tree.setKind layer.hole (.argument modifier value)
      | _ => throw (.violation .holeNotArgument)
    split.lambdaOver layer.call

/-- The functions of layers, outermost first, as the functions of a run of calls. -/
def layerFunctions (split : LambdaCall) (layers : List Layer) : List (Change Ref) :=
  match layers.reverse with
  | [] => []
  | first :: others => split.layerFunction true first :: others.map (split.layerFunction false)

end LambdaCall

namespace Context

/-- The calls of a method in the statement of a node that have a simple lambda. -/
def lambdaCalls (context : Context) (method : String) (ref : Ref) : List LambdaCall :=
  let tree := context.tree
  (tree.callsOf method (tree.statementOf ref)).filterMap tree.lambdaCall?

/-- Offers to split a call into a number of calls. -/
def offerSplit (context : Context) (refactoring : Refactoring) (split : LambdaCall)
    (functions : List (Change Ref)) : Attempt (Option Action) :=
  let title :=
    "Split into " ++ toString functions.length ++ " " ++ split.called.name ++ " calls"
  context.offer refactoring title context.tree (split.splitInto functions)

/-- Splits the first filter in the statement of a node that has a conjunction. -/
def splitFilter (context : Context) (ref : Ref) : Attempt (Option Action) := do
  let found := (context.lambdaCalls "Where" ref).findSome? fun split =>
    (split, ·) <$> context.tree.splitOperands? split
  match found with
  | none => Attempt.refuse .noWhereConjunction
  | some (split, operands) =>
    context.offerSplit .splitWhere split (operands.map (split.lambdaOver ·))

/-- Splits the first projection in the statement of a node that has a composition. -/
def splitProjection (context : Context) (ref : Ref) : Attempt (Option Action) := do
  let found := (context.lambdaCalls "Select" ref).findSome? fun split =>
    (split, ·) <$> context.tree.splitLayers? context.model split
  match found with
  | none => Attempt.refuse .noSelectComposition
  | some (split, layers) =>
    context.offerSplit .splitSelect split (split.layerFunctions layers)

end Context

end Refactory
