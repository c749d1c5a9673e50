import Refactory.Attempt
import Refactory.Code.Substitution

/-!
# Converting loops

A counted loop `for (int i = 0; i < xs.Length; i++)` whose body only reads the elements `xs[i]`
becomes a loop `foreach (var x in xs)`, and such a loop becomes a counted one. A collection that
cannot be indexed where it stands is put into a local variable first.
-/
namespace Refactory

/-- A loop that counts through the places of a collection. -/
structure CountedLoop where
  /-- The loop. -/
  ref : Ref
  /-- The counter. -/
  counter : SymbolId
  /-- The collection whose size bounds the counter. -/
  collection : Ref
  /-- The body. -/
  body : Ref

/-- A loop over the elements of a collection. -/
structure ElementLoop where
  /-- The loop. -/
  ref : Ref
  /-- The collection. -/
  collection : Ref
  /-- The body. -/
  body : Ref

/-- How a counted loop gets at the elements of a collection. -/
inductive Access where
  /-- By indexing the collection where it stands. -/
  | inPlace
  /-- By indexing a local variable that holds the collection. -/
  | local
  /-- By indexing a local variable that holds an array of the elements. -/
  | array
deriving DecidableEq, Inhabited

namespace Tree

/-- The collection whose size an expression reads, as `Length`, `Count` or `Count()`. -/
def sizedCollection? (tree : Tree) (bound : Ref) : Option Ref :=
  match tree.kind bound with
  | .member receiver name false =>
    if name = "Length" || name = "Count" then some receiver else none
  | .invoke callee arguments =>
    match tree.kind callee with
    | .member receiver "Count" false => if arguments.isEmpty then some receiver else none
    | _ => none
  | _ => none

/-- The declarator of a declaration of one variable that starts from zero. -/
def zeroDeclarator? (tree : Tree) (declaration : Ref) : Option Ref :=
  match tree.kind declaration with
  | .localDecl _ declarators =>
    match tree.items declarators with
    | [declarator] =>
      match tree.kind declarator with
      | .declarator _ value => if tree.kind value = .int 0 then some declarator else none
      | _ => none
    | _ => none
  | _ => none

/-- What the only step of a loop increments. -/
def incremented? (tree : Tree) (steps : Range) : Option Ref :=
  match tree.items steps with
  | [step] =>
    match tree.kind step with
    | .unary .postInc operand | .unary .preInc operand => some operand
    | _ => none
  | _ => none

/-- The element loop of a node. -/
def elementLoop? (tree : Tree) (ref : Ref) : Option ElementLoop :=
  match tree.kind ref with
  | .forEach _ _ collection body => some ⟨ref, collection, body⟩
  | _ => none

/-- The parts of a loop that counts from zero, in steps of one, up to the size of a collection that
is a stable path. -/
def countedLoop? (tree : Tree) (model : Model) (ref : Ref) : Option CountedLoop :=
  match tree.kind ref with
  | .forLoop declaration initializers condition steps body => do
    guard initializers.isEmpty
    let counter ← model.declaredSymbol (← tree.zeroDeclarator? declaration)
    guard (model.symbolType counter).isIntegral
    match tree.kind condition with
    | .binary .lt left right =>
      guard (model.symbolOf left == some counter)
      let collection ← tree.sizedCollection? right
      guard (tree.isStablePath collection)
      guard (model.symbolOf (← tree.incremented? steps) == some counter)
      return ⟨ref, counter, collection, body⟩
    | _ => none
  | _ => none

end Tree

namespace CountedLoop

/-- The first hazard in the body. -/
def hazard? (loop : CountedLoop) (tree : Tree) (model : Model) : Option Hazard :=
  tree.countedLoopHazard? model loop.body loop.counter loop.collection

/-- The names that suggest themselves for the elements. -/
def suggestedNames (loop : CountedLoop) (tree : Tree) (model : Model) : List String :=
  ((tree.lastName? loop.collection).bind singular?).toList ++
    (model.typeOf loop.collection).elementType.variableName?.toList

/-- Puts a loop over elements with a changed body in the place of the loop. -/
def toElementLoop (loop : CountedLoop) (name : String) (body : Ref) : Change Unit := do
  let tree ← get
  let type ← Build.typeRef "var"
  let converted ← Tree.alloc (.forEach type name loop.collection body) (tree.span loop.ref)
  Change.put (tree.parent loop.ref) loop.ref converted

end CountedLoop

namespace ElementLoop

/-- How to get at the elements of the collection, and the member that gives its size. -/
def access? (loop : ElementLoop) (tree : Tree) (model : Model) : Option (Access × String) :=
  let type := model.typeOf loop.collection
  match type.collectionShape? with
  | some shape =>
    some (if tree.isStablePath loop.collection then .inPlace else .local, shape.lengthMember)
  | none => if type.elementType.isUnknown then none else some (.array, "Length")

/-- What the elements are read from, and the declaration of it where it is a new variable. -/
def source (loop : ElementLoop) (access : Access) (name : String) : Edit (Ref × Option Ref) := do
  match access with
  | .inPlace => return (loop.collection, none)
  | .local =>
    let declaration ← Build.localDecl "var" name loop.collection
    return (← Build.ident name, some declaration)
  | .array =>
    let conversion ← Build.member loop.collection "ToArray" false
    let value ← Build.invoke conversion []
    let declaration ← Build.localDecl "var" name value
    return (← Build.ident name, some declaration)

/-- A counted loop over the places of a collection. -/
def counted (loop : ElementLoop) (target : Ref) (sizeMember counter : String) (body : Ref) :
    Edit Ref := do
  let zero ← Build.int 0
  let declaration ← Build.localDecl "int" counter zero
  let size ← Build.member target sizeMember false
  let tested ← Build.ident counter
  let condition ← Build.binary .lt tested size
  let stepped ← Build.ident counter
  let step ← Build.unary .postInc stepped
  let steps ← Tree.allocList [step]
  Tree.alloc (.forLoop declaration .empty condition steps body) ((← get).span loop.ref)

/-- Puts a counted loop in the place of the loop, after the declaration of a variable for the
collection where there is one. -/
def toCountedLoop (loop : ElementLoop) (model : Model) (element : SymbolId) (access : Access)
    (sizeMember name counter : String) : Change Unit := do
  let parent := (← get).parent loop.ref
  let (target, declaration) ← loop.source access name
  let body ← Tree.indexElements model element target counter loop.body
  let converted ← loop.counted target sizeMember counter body
  Change.put parent loop.ref converted
  match declaration with
  | some declaration => Change.putBefore converted [declaration]
  | none => return ()

end ElementLoop

namespace Context

/-- The first loop without a hazard; the hazards of the loops before it are logged. -/
def firstSafe (context : Context) : List CountedLoop → Attempt (Option CountedLoop)
  | [] => return none
  | loop :: loops => do
    match loop.hazard? context.tree context.model with
    | none => return some loop
    | some hazard =>
      Attempt.note (.loopRejected hazard)
      firstSafe context loops

/-- Converts the innermost counted loop around a node that can be converted. -/
def forToForEach (context : Context) (ref : Ref) : Attempt (Option Action) := do
  let tree := context.tree
  let model := context.model
  match ← context.firstSafe ((tree.lineage ref).filterMap (tree.countedLoop? model)) with
  | none => return none
  | some loop =>
    let (name, _) ← Attempt.pickName (context.namesAt loop.ref)
      (loop.suggestedNames tree model) context.settings.iteration
    let ((body, count), scratch) :=
      (Tree.nameElements model loop.counter loop.collection name loop.body).run tree
    Attempt.note (.elementsNamed count)
    context.offer .forToForEach "Convert to foreach" scratch (loop.toElementLoop name body)

/-- The name of the variable that holds a collection, and the names that are left. -/
def accessName (context : Context) (scope : NameScope) : Access → Attempt (String × NameScope)
  | .inPlace => return ("", scope)
  | .local => Attempt.pickName scope [] context.settings.items
  | .array => Attempt.pickName scope [] context.settings.array

/-- Converts the innermost loop over elements around a node, if it can be converted. -/
def forEachToFor (context : Context) (ref : Ref) : Attempt (Option Action) := do
  let tree := context.tree
  let model := context.model
  let found := do
    let loop ← (tree.lineage ref).findSome? tree.elementLoop?
    return (loop, ← model.declaredSymbol loop.ref)
  match found with
  | none => return none
  | some (loop, element) =>
    match tree.elementLoopHazard? model loop.body element loop.collection,
        loop.access? tree model with
    | some hazard, _ => Attempt.refuse (.elementLoop hazard)
    | none, none => Attempt.refuse .unknownCollection
    | none, some (access, sizeMember) =>
      let (name, scope) ← context.accessName (context.namesAt loop.ref) access
      let (counter, _) ← Attempt.pickName scope [] context.settings.counter
      context.offer .forEachToFor "Convert to for" tree
        (loop.toCountedLoop model element access sizeMember name counter)

end Context

end Refactory
