import Refactory.Code.Abstraction
import Refactory.Code.Substitution

/-!
# Combining functions and taking them apart

Predicates are combined by conjunction and projections by composition. `conjoin` and `compose` build
the body of the combined function over one parameter. `Tree.conjuncts` and `Tree.layers?` go the
other way: the first gives the operands of a conjunction, the second the calls of a composition,
each of which passes the next one, or the parameter, in one of its arguments.
-/
namespace Refactory

/-- One call of a composition. -/
structure Layer where
  /-- The call. -/
  call : Ref
  /-- The argument that holds the next layer, or the parameter in the innermost one. -/
  hole : Ref
deriving DecidableEq

namespace Abstraction

/-- The body of a predicate as an operand of a conjunction, its parameter renamed. -/
def operand (model : Model) (name : String) (predicate : Abstraction) : Edit Ref := do
  let body ← Tree.renameReferences model predicate.referent name predicate.body
  if (← get).isAtomic body then return body else Build.paren body

/-- Joins an expression and the bodies of predicates by conjunctions that group to the left. -/
def conjoinOnto (model : Model) (name : String) (conjunction : Ref) :
    List Abstraction → Edit Ref
  | [] => return conjunction
  | predicate :: predicates => do
    let operand ← predicate.operand model name
    let conjunction ← Build.binary .and conjunction operand
    conjoinOnto model name conjunction predicates

/-- The conjunction of a predicate and others over a parameter of one name. -/
def conjoin (model : Model) (name : String) (first : Abstraction) (others : List Abstraction) :
    Edit Ref := do
  let operand ← first.operand model name
  conjoinOnto model name operand others

/-- Puts an expression in the place of the parameter of the first function, the result in the place
of the parameter of the second, and so on. -/
def composeOnto (model : Model) (composed : Ref) : List Abstraction → Edit Ref
  | [] => return composed
  | function :: functions => do
    let composed ← Tree.substituteReferences model function.referent composed function.body
    composeOnto model composed functions

/-- The composition of a function with others over a parameter of one name, the first function
applied first. -/
def compose (model : Model) (name : String) (first : Abstraction) (others : List Abstraction) :
    Edit Ref := do
  let body ← Tree.renameReferences model first.referent name first.body
  composeOnto model body others

/-- Whether a node is a call. -/
def isCall (tree : Tree) (ref : Ref) : Bool :=
  match tree.kind ref with
  | .invoke _ _ => true
  | _ => false

/-- A function can take part in a composition when its body is a call and, unless it comes first, it
uses its parameter exactly once. -/
def isComposable (function : Abstraction) (tree : Tree) (model : Model) (place : Nat) : Bool :=
  isCall tree (tree.stripParens function.body) &&
    (place == 0 || (function.referent.references tree model function.body).length == 1)

end Abstraction

namespace Tree

/-- The operands of conjunctions nested at most so deep, left to right. -/
def conjunctsWithin (tree : Tree) : Nat → Ref → List Ref
  | 0, ref => [ref]
  | bound + 1, ref =>
    match tree.kind ref with
    | .binary .and left right => conjunctsWithin tree bound left ++ conjunctsWithin tree bound right
    | .paren inner => [inner]
    | _ => [ref]

/-- The operands of a conjunction, left to right. Parentheses around the whole do not count, and an
operand in parentheses loses one pair and is not taken apart. -/
def conjuncts (tree : Tree) (body : Ref) : List Ref :=
  tree.conjunctsWithin tree.depthBound (tree.stripParens body)

/-- An argument of a call with what it passes. -/
structure Passed where
  /-- The argument. -/
  argument : Ref
  /-- How it is passed. -/
  modifier : Modifier
  /-- What is passed. -/
  value : Ref

/-- The arguments of a list. -/
def passed (tree : Tree) (arguments : Range) : List Passed :=
  (tree.items arguments).filterMap fun ref =>
    match tree.kind ref with
    | .argument modifier value => some ⟨ref, modifier, value⟩
    | _ => none

/-- The argument of a call that holds the next layer of a composition, if the callee and the other
arguments have nothing to do with the parameter: the one argument that is a call if it uses the
parameter, and else the one plain argument that is the parameter. The flag tells whether a layer
follows. -/
def hole? (tree : Tree) (model : Model) (referent : Referent) (callee : Ref)
    (arguments : List Passed) : Option (Passed × Bool) :=
  let uses (ref : Ref) : Bool := referent.isReferencedIn tree model ref
  let onlyUse (hole : Passed) : Bool :=
    arguments.all fun other => other.argument = hole.argument || !uses other.value
  let chosen : Option (Passed × Bool) :=
    match arguments.filter (Abstraction.isCall tree ·.value) with
    | _ :: _ :: _ => none
    | calls =>
      match calls.filter (uses ·.value) with
      | hole :: _ => if hole.modifier = .plain then some (hole, true) else none
      | [] =>
        match arguments.filter fun argument =>
            argument.modifier = .plain && referent.isAt tree model argument.value with
        | [hole] => some (hole, false)
        | _ => none
  if uses callee then none else chosen.filter (onlyUse ·.1)

/-- The layers of a composition, outermost first, at most so many. -/
def layersWithin (tree : Tree) (model : Model) (referent : Referent) :
    Nat → Ref → Option (List Layer)
  | 0, _ => none
  | bound + 1, ref =>
    match tree.kind ref with
    | .invoke callee arguments =>
      match tree.hole? model referent callee (tree.passed arguments) with
      | some (hole, true) =>
        (layersWithin tree model referent bound hole.value).map (⟨ref, hole.argument⟩ :: ·)
      | some (hole, false) => some [⟨ref, hole.argument⟩]
      | none => none
    | _ => none

/-- The layers of a body that is a composition of at least two calls, outermost first. -/
def layers? (tree : Tree) (model : Model) (referent : Referent) (body : Ref) :
    Option (List Layer) :=
  (tree.layersWithin model referent tree.depthBound (tree.stripParens body)).filter
    (2 ≤ ·.length)

end Tree

end Refactory
