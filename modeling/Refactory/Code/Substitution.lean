import Refactory.Code.Build
import Refactory.Code.Expression
import Refactory.Code.Referent
import Refactory.Tree.Fold

/-!
# Substitutions

Edits that put something else in the place of certain expressions, wherever they are at or below
a node. The nodes that are replaced are found by what their names mean in the tree before the
edit, never by spelling alone. A part of the code in which nothing is replaced stays as it is.
-/
namespace Refactory

namespace Tree

/-- Renames the references of a referent at a node and everything below it. -/
def renameReferences (model : Model) (referent : Referent) (name : String) (ref : Ref) :
    Edit Ref := do
  let (renamed, _) ← fold (fun _ ref => do
    if referent.isAt (← get) model ref then return .become (← Build.ident name)
    else return .rebuild) ref
  return renamed

/-- Whether a node is the value of an argument. -/
def isArgumentValue (tree : Tree) (ref : Ref) : Bool :=
  match tree.parent ref with
  | none => false
  | parent =>
    match tree.kind parent with
    | .argument _ _ => true
    | _ => false

/-- Puts an expression in the place of the references of a referent at a node and everything below
it. The first reference gets the expression itself and the others copies of it. The expression is
put in parentheses unless it is primary, the value of an argument or the whole result. -/
def substituteReferences (model : Model) (referent : Referent) (replacement ref : Ref) :
    Edit Ref := do
  let (substituted, _) ← fold (fun replaced current => do
    if referent.isAt (← get) model current then
      let value ← if replaced = 0 then pure replacement else duplicate replacement
      let tree ← get
      if current = ref || tree.isArgumentValue current || tree.isPrimary value then
        return .become value
      else
        return .become (← Build.paren value)
    else
      return .rebuild) ref
  return substituted

/-- Whether a node reads the element of a collection at a counter. -/
def isElementAt (tree : Tree) (model : Model) (counter : SymbolId) (collection ref : Ref) : Bool :=
  match tree.kind ref with
  | .index receiver arguments =>
    match tree.items arguments with
    | [position] =>
      model.symbolOf position == some counter && tree.samePath model receiver collection
    | _ => false
  | _ => false

/-- Puts a name in the place of the elements of a collection at a counter, and counts them. -/
def nameElements (model : Model) (counter : SymbolId) (collection : Ref) (name : String)
    (ref : Ref) : Edit (Ref × Nat) :=
  fold (fun _ ref => do
    if (← get).isElementAt model counter collection ref then return .become (← Build.ident name)
    else return .rebuild) ref

/-- Puts the element of a collection at a counter in the place of the references to a loop variable,
each with a copy of the collection. -/
def indexElements (model : Model) (element : SymbolId) (collection : Ref) (counter : String)
    (ref : Ref) : Edit Ref := do
  let (indexed, _) ← fold (fun _ ref => do
    if (Referent.symbol element).isAt (← get) model ref then
      let receiver ← duplicate collection
      let position ← Build.ident counter
      return .become (← Build.index receiver position)
    else
      return .rebuild) ref
  return indexed

end Tree

end Refactory
