import Refactory.Code.Expression
import Refactory.Code.Effect

/-!
# Hazards of loops

A counted loop can become a loop over elements if its body reads the current element and does
nothing else with the counter. A loop over elements can become a counted loop if its body never
writes the element and no lambda takes hold of it. In either direction the body must not give the
collection another value. A hazard is a reason why a body is not like that.
-/
namespace Refactory

/-- Why a loop cannot be converted. -/
inductive Hazard where
  /-- The counter is used other than as the only index into the collection. -/
  | counterEscapes
  /-- An element is assigned to, incremented or passed for writing. -/
  | elementWritten
  /-- The collection, or a name that it is reached through, is written. -/
  | collectionWritten
  /-- A lambda uses the loop variable, whose lifetime would change. -/
  | captured
deriving DecidableEq, Inhabited

/-- What is said of a hazard. -/
def Hazard.description : Hazard → String
  | counterEscapes => "counter used outside an element access"
  | elementWritten => "element written through the counter"
  | collectionWritten => "collection reassigned in the loop"
  | captured => "loop variable captured by a lambda"

namespace Tree

/-- Whether a node stands in a lambda inside a loop body. -/
def isCaptured (tree : Tree) (body ref : Ref) : Bool :=
  ((tree.ancestors ref).takeWhile (· != body)).any fun ref =>
    match tree.kind ref with
    | .lambda _ _ _ => true
    | _ => false

/-- The element access of a collection that a node is the whole index of. -/
def elementAccess? (tree : Tree) (model : Model) (collection ref : Ref) : Option Ref :=
  match tree.parent ref with
  | none => none
  | access =>
    match tree.kind access with
    | .index receiver arguments =>
      if tree.items arguments = [ref] && tree.samePath model receiver collection then some access
      else none
    | _ => none

/-- Whether a node, or a member reached from it, is written, given the nodes above it. -/
def isWrittenThrough (tree : Tree) : Ref → List Ref → Bool
  | ref, [] => tree.isWritten ref
  | ref, parent :: above =>
    tree.isWritten ref ||
      match tree.kind parent with
      | .member receiver _ _ => receiver == ref && isWrittenThrough tree parent above
      | _ => false

/-- Whether an element, or a member reached from it, is written where it is accessed. -/
def isElementWritten (tree : Tree) (access : Ref) : Bool :=
  tree.isWrittenThrough access (tree.ancestors access)

/-- The hazard of writing a collection, or a name that it is reached through, in a loop body. -/
def collectionHazard? (tree : Tree) (model : Model) (body collection : Ref) : Option Hazard :=
  let root := tree.pathRoot collection
  let isReassigned (ref : Ref) : Bool :=
    tree.isWritten ref && tree.isStablePath ref && tree.samePath model (tree.pathRoot ref) root
  if (tree.descendants body).any isReassigned then some .collectionWritten else none

/-- The hazard of one use of a counter. -/
def counterUseHazard? (tree : Tree) (model : Model) (body collection use : Ref) : Option Hazard :=
  if tree.isCaptured body use then
    some .counterEscapes
  else
    match tree.elementAccess? model collection use with
    | none => some .counterEscapes
    | some access => if tree.isElementWritten access then some .elementWritten else none

/-- The first hazard in the body of a counted loop, if it does anything but read the element of the
collection at the counter. -/
def countedLoopHazard? (tree : Tree) (model : Model) (body : Ref) (counter : SymbolId)
    (collection : Ref) : Option Hazard :=
  let uses := (tree.descendants body).filter (model.symbolOf · == some counter)
  uses.findSome? (tree.counterUseHazard? model body collection) <|>
    tree.collectionHazard? model body collection

/-- The hazard of one use of a loop variable. -/
def elementUseHazard? (tree : Tree) (body use : Ref) : Option Hazard :=
  if tree.isWritten use then some .elementWritten
  else if tree.isCaptured body use then some .captured
  else none

/-- The first hazard in the body of a loop over elements. A collection that is no stable path is
read once, so that nothing the body does can change it. -/
def elementLoopHazard? (tree : Tree) (model : Model) (body : Ref) (element : SymbolId)
    (collection : Ref) : Option Hazard :=
  let uses := (tree.descendants body).filter (model.symbolOf · == some element)
  uses.findSome? (tree.elementUseHazard? body) <|>
    if tree.isStablePath collection then tree.collectionHazard? model body collection else none

end Tree

end Refactory
