import Refactory.Tree.Walk

/-!
# Forms of calls

Refactorings look for calls of members: `receiver.member(arguments)`. A combinator call has one
plain argument, which may be a lambda of one parameter with an expression for its body.
-/
namespace Refactory

/-- The called member access of a call. -/
structure CalledMember where
  /-- The member access. -/
  access : Ref
  /-- What the member is called on. -/
  receiver : Ref
  /-- The name of the member. -/
  name : String
  /-- Whether the call is skipped on null. -/
  conditional : Bool

/-- A lambda of one parameter with an expression for its body. -/
structure SimpleLambda where
  /-- The parameter. -/
  param : Ref
  /-- The name of the parameter. -/
  name : String
  /-- The body. -/
  body : Ref
  /-- Whether the parameter is written in parentheses. -/
  parenthesized : Bool

namespace Tree

/-- The value of the argument of a call with one argument, which must be plain. -/
def singleArgument? (tree : Tree) (call : Ref) : Option Ref :=
  match tree.kind call with
  | .invoke _ arguments =>
    match tree.items arguments with
    | [argument] =>
      match tree.kind argument with
      | .argument .plain value => some value
      | _ => none
    | _ => none
  | _ => none

/-- The member that a call calls. -/
def calledMember? (tree : Tree) (call : Ref) : Option CalledMember :=
  match tree.kind call with
  | .invoke callee _ =>
    match tree.kind callee with
    | .member receiver name conditional => some ⟨callee, receiver, name, conditional⟩
    | _ => none
  | _ => none

/-- A block is a sequence of statements between braces. -/
def isBlock (tree : Tree) (ref : Ref) : Bool :=
  match tree.kind ref with
  | .block _ => true
  | _ => false

/-- The parts of a simple lambda. -/
def simpleLambda? (tree : Tree) (ref : Ref) : Option SimpleLambda :=
  match tree.kind ref with
  | .lambda params body parenthesized =>
    match tree.items params with
    | [param] =>
      match tree.kind param with
      | .param _ name => if tree.isBlock body then none else some ⟨param, name, body, parenthesized⟩
      | _ => none
    | _ => none
  | _ => none

/-- Whether a node calls a method of a name with one plain argument. -/
def isCallOf (tree : Tree) (method : String) (ref : Ref) : Bool :=
  (tree.calledMember? ref).any (·.name == method) && (tree.singleArgument? ref).isSome

/-- The calls of a method with one plain argument at a node and everything below it, outermost
first. -/
def callsOf (tree : Tree) (method : String) (container : Ref) : List Ref :=
  (tree.descendants container).filter (tree.isCallOf method)

/-- The calls of members met on the way from a call down its receivers, at most so many. -/
def callSpineWithin (tree : Tree) : Nat → Ref → List Ref
  | 0, _ => []
  | bound + 1, ref =>
    match tree.calledMember? ref with
    | some called => ref :: callSpineWithin tree bound called.receiver
    | none => []

/-- The calls of members met on the way from a call down its receivers, outermost first. -/
def callSpine (tree : Tree) (ref : Ref) : List Ref :=
  tree.callSpineWithin tree.depthBound ref

/-- The receiver below at most so many calls, member accesses and element accesses. -/
def spineRootWithin (tree : Tree) : Nat → Ref → Ref
  | 0, ref => ref
  | bound + 1, ref =>
    match tree.kind ref with
    | .invoke callee _ => spineRootWithin tree bound callee
    | .member receiver _ _ => spineRootWithin tree bound receiver
    | .index receiver _ => spineRootWithin tree bound receiver
    | _ => ref

/-- The innermost receiver of calls, member accesses and element accesses. -/
def spineRoot (tree : Tree) (ref : Ref) : Ref := tree.spineRootWithin tree.depthBound ref

end Tree

end Refactory
