import Refactory.Model
import Refactory.Tree.Walk

/-!
# Referents

What the parameter of a lambda is, for finding the references to it. A parameter that is written in
the program has a symbol. A parameter that a refactoring has made up has none; its one reference is
the node that the refactoring has put there.
-/
namespace Refactory

/-- What references to a parameter refer to. -/
inductive Referent where
  /-- A parameter written in the program. -/
  | symbol (id : SymbolId)
  /-- A made-up parameter with its only reference. -/
  | synthesized (reference : Ref)
deriving DecidableEq, Inhabited

namespace Referent

/-- A referent is made up when no symbol is behind it. -/
def isSynthesized : Referent → Bool
  | symbol _ => false
  | synthesized _ => true

/-- Whether a node is a reference to the referent. -/
def isAt (referent : Referent) (tree : Tree) (model : Model) (ref : Ref) : Bool :=
  match referent with
  | symbol id =>
    match tree.kind ref with
    | .ident _ => model.symbolOf ref == some id
    | _ => false
  | synthesized reference => ref == reference

/-- The references at a node and everything below it. -/
def references (referent : Referent) (tree : Tree) (model : Model) (ref : Ref) : List Ref :=
  (tree.descendants ref).filter (referent.isAt tree model)

/-- Whether there is a reference at a node or below it. -/
def isReferencedIn (referent : Referent) (tree : Tree) (model : Model) (ref : Ref) : Bool :=
  (tree.descendants ref).any (referent.isAt tree model)

end Referent

end Refactory
