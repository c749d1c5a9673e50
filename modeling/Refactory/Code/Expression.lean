import Refactory.Model
import Refactory.Tree.Walk

/-!
# Forms of expressions

What refactorings ask about expressions: whether they hold together without parentheses, and whether
they are paths. A path is a name with members after it; a stable one skips no member on null, so
reading it twice gives the same storage. Two paths are the same when their names mean the same
thing and the members are spelled alike.
-/
namespace Refactory

namespace Tree

/-- The expression inside parentheses, at most so many of them. -/
def stripParensWithin (tree : Tree) : Nat → Ref → Ref
  | 0, ref => ref
  | bound + 1, ref =>
    match tree.kind ref with
    | .paren inner => stripParensWithin tree bound inner
    | _ => ref

/-- The expression inside any number of parentheses. -/
def stripParens (tree : Tree) (ref : Ref) : Ref := tree.stripParensWithin tree.depthBound ref

/-- Primary expressions bind tighter than any operator. -/
def isPrimary (tree : Tree) (ref : Ref) : Bool :=
  match tree.kind ref with
  | .ident _ | .member _ _ _ | .invoke _ _ | .index _ _ | .paren _ => true
  | kind => kind.isLiteral

/-- Atomic expressions need no parentheses as operands of a conjunction. -/
def isAtomic (tree : Tree) (ref : Ref) : Bool :=
  match tree.kind ref with
  | .unary op _ => op == .not
  | .binary op _ _ => op.isComparison
  | _ => tree.isPrimary ref

/-- Whether an expression is a name with at most so many members after it. -/
def isStablePathWithin (tree : Tree) : Nat → Ref → Bool
  | 0, _ => false
  | bound + 1, ref =>
    match tree.kind ref with
    | .ident _ => true
    | .member receiver _ false => isStablePathWithin tree bound receiver
    | _ => false

/-- Stable paths are names with members after them, none skipped on null. -/
def isStablePath (tree : Tree) (ref : Ref) : Bool := tree.isStablePathWithin tree.depthBound ref

/-- The receiver below at most so many member accesses. -/
def pathRootWithin (tree : Tree) : Nat → Ref → Ref
  | 0, ref => ref
  | bound + 1, ref =>
    match tree.kind ref with
    | .member receiver _ _ => pathRootWithin tree bound receiver
    | _ => ref

/-- The name that a path starts with. -/
def pathRoot (tree : Tree) (ref : Ref) : Ref := tree.pathRootWithin tree.depthBound ref

/-- The name that a path ends with. -/
def lastName? (tree : Tree) (ref : Ref) : Option String :=
  match tree.kind ref with
  | .ident name | .member _ name _ => some name
  | _ => none

/-- Whether two names mean the same thing. Names that nothing is known of mean the same thing when
they are spelled alike. -/
def sameName (model : Model) (left right : Ref) (leftName rightName : String) : Bool :=
  match model.symbolOf left, model.symbolOf right with
  | some leftSymbol, some rightSymbol => leftSymbol == rightSymbol
  | none, none => leftName == rightName
  | _, _ => false

/-- Whether two paths with at most so many members denote the same storage. -/
def samePathWithin (tree : Tree) (model : Model) : Nat → Ref → Ref → Bool
  | 0, _, _ => false
  | bound + 1, left, right =>
    match tree.kind left, tree.kind right with
    | .ident leftName, .ident rightName => sameName model left right leftName rightName
    | .member leftReceiver leftName false, .member rightReceiver rightName false =>
      leftName == rightName && samePathWithin tree model bound leftReceiver rightReceiver
    | _, _ => false

/-- Whether two stable paths denote the same storage. -/
def samePath (tree : Tree) (model : Model) (left right : Ref) : Bool :=
  tree.samePathWithin model tree.depthBound left right

end Tree

end Refactory
