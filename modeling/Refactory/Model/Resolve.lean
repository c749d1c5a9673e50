import Refactory.Model
import Refactory.Tree.Outline

/-!
# Building the model of a tree

One walk over the outline of a tree, in source order, finds what its names mean and what types its
expressions have. A block, a method, a lambda, a counted loop and a loop over elements open scopes.
The locals declared directly in a unit or block are bound before the walk enters it; other names
are bound where the walk meets them. A local has its type from its declaration on.
-/
namespace Refactory

namespace Model

/-- A step of the walk. -/
abbrev Resolving (α : Type) := StateM Model α

/-- Changes what is known of a node. -/
def note (ref : Ref) (change : Facts → Facts) : Resolving Unit := modify fun model =>
  match ref with
  | none => model
  | some number => { model with facts := model.facts.modify number change }

/-- Records the scope around a node. -/
def enter (scope : ScopeId) (ref : Ref) : Resolving Unit :=
  note ref fun facts => { facts with scope := some scope }

/-- Records the type of a node. -/
def setType (ref : Ref) (type : DataType) : Resolving Unit :=
  note ref fun facts => { facts with type }

/-- Opens a scope inside another. -/
def openScope (parent : ScopeId) : Resolving ScopeId := fun model =>
  (model.scopes.size, { model with scopes := model.scopes.push ⟨some parent, []⟩ })

/-- Declares a symbol at a node and binds its name in a scope. -/
def declare (scope : ScopeId) (name : String) (kind : SymbolKind) (type : DataType) (ref : Ref) :
    Resolving SymbolId := do
  let symbol := (← get).symbols.size
  modify fun model =>
    { model with
      symbols := model.symbols.push ⟨name, kind, type, ref⟩
      scopes := model.scopes.modify scope fun scope =>
        { scope with bindings := (name, symbol) :: scope.bindings } }
  note ref fun facts => { facts with declared := some symbol }
  return symbol

/-- Records the type of a symbol. -/
def setSymbolType (symbol : SymbolId) (type : DataType) : Resolving Unit := modify fun model =>
  { model with symbols := model.symbols.modify symbol fun symbol => { symbol with type } }

/-- Declares the locals of statements, before their types are known. -/
def predeclare (scope : ScopeId) (statements : List Outline) : Resolving Unit :=
  statements.forM fun
    | .node _ (.localDecl _ declarators) => declarators.forM fun
      | .node place (.declarator name _) => do
        discard (declare scope name .local .unknown place.ref)
      | _ => return
    | _ => return

/-- The name that stands in the place of a type where the type is to be inferred. -/
def inferredTypeName : String := "var"

mutual

/-- The type that is written down, or `none` where it is to be inferred. -/
def writtenType : Outline → Option DataType
  | .node _ (.typeRef name arguments rank) =>
    if name = inferredTypeName && arguments.isEmpty && rank == 0 then none
    else some ((DataType.named name (writtenTypes arguments)).withRank rank)
  | _ => some .unknown

/-- The types that are written down; one to be inferred is unknown. -/
def writtenTypes : List Outline → List DataType
  | [] => []
  | type :: types => (writtenType type).getD .unknown :: writtenTypes types

end

/-- The type that is written down, or `none` where it is to be inferred; no type is unknown. -/
def writtenTypeOf (type : Option Outline) : Option DataType :=
  match type with
  | none => some .unknown
  | some type => writtenType type

/-- The type of an optional child. -/
def childType (model : Model) : Option Outline → DataType
  | none => .unknown
  | some child => model.typeOf child.note.ref

/-- The type of the elements of the receiver of a call, or of what else is called. -/
def receiverType (model : Model) : Option Outline → DataType
  | some (.node _ (.member receiver _ _)) => model.childType receiver
  | _ => .unknown

/-- The type of the body of the lambda that is the first argument of a call. -/
def projectedType (model : Model) : List Outline → DataType
  | .node _ (.argument _ (some (.node _ (.lambda _ body _)))) :: _ => model.childType body
  | _ => .unknown

/-- The type of a call of a member of a receiver whose type is known. -/
def memberCallType (model : Model) (receiver : DataType) (name : String)
    (arguments : List Outline) : DataType :=
  if name = "Where" then .enumerableOf receiver.elementType
  else if name = "Select" then .enumerableOf (model.projectedType arguments)
  else if name = "ToArray" then .array receiver.elementType
  else if name = "ToList" then .listOf receiver.elementType
  else if name = "First" then receiver.elementType
  else if name = "Any" || name = "All" then .bool
  else if name = "Count" then .int
  else .unknown

/-- The type of an operation, given that of its left operand. -/
def binaryType (left : DataType) : BinaryOp → DataType
  | .add | .sub | .mul | .div | .mod | .coalesce => left
  | _ => .bool

/-- The type of an expression whose children are resolved. -/
def inferType (model : Model) : Term.Form Place → DataType
  | .int _ => .int
  | .str _ => .string
  | .bool _ => .bool
  | .paren inner => model.childType inner
  | .argument _ value => model.childType value
  | .member receiver name _ =>
    match (model.childType receiver).collectionShape? with
    | some shape => if shape.lengthMember = name then .int else .unknown
    | none => .unknown
  | .index receiver _ =>
    match (model.childType receiver).collectionShape? with
    | some shape => shape.element
    | none => .unknown
  | .binary op left _ => binaryType (model.childType left) op
  | .unary op operand => if op = .not then .bool else model.childType operand
  | .assign _ target _ => model.childType target
  | .invoke (some (.node _ (.member receiver name _))) arguments =>
    let receiver := model.childType receiver
    if receiver.isUnknown then .unknown else model.memberCallType receiver name arguments
  | _ => .unknown

/-- Records the type of a node whose children are resolved, where something is known of it. -/
def infer (ref : Ref) (form : Term.Form Place) : Resolving Unit := do
  let type := (← get).inferType form
  unless type.isUnknown do setType ref type

/-- Resolves an identifier. -/
def resolveName (scope : ScopeId) (name : String) (ref : Ref) : Resolving Unit := do
  let model ← get
  match model.lookupIn scope name with
  | none => return
  | some symbol =>
    note ref fun facts =>
      { facts with reference := some symbol, type := model.symbolType symbol }

/-- Declares the parameters of a method or lambda, whose types `typeOf` gives. -/
def declareParams (scope : ScopeId) (kind : SymbolKind) (typeOf : Option Outline → DataType)
    (params : List Outline) : Resolving Unit :=
  params.forM fun param => do
    enter scope param.note.ref
    match param with
    | .node place (.param type name) => discard (declare scope name kind (typeOf type) place.ref)
    | _ => return

/-- Records the type of a declared local, which is declared here unless it was before. -/
def settleLocal (scope : ScopeId) (name : String) (type : DataType) (ref : Ref) :
    Resolving Unit := do
  let symbol ← match (← get).declaredSymbol ref with
    | some symbol => pure symbol
    | none => declare scope name .local .unknown ref
  setSymbolType symbol type

mutual

/-- Resolves a node and everything below it. The parameters of a lambda have the type `given`, which
an argument hands on to its value. -/
def resolve (scope : ScopeId) (given : DataType) : Outline → Resolving Unit
  | .node place form => do
    enter scope place.ref
    resolveForm scope given place.ref form
    infer place.ref form

/-- Resolves what is below a node, and the name of the node if it has one. -/
def resolveForm (scope : ScopeId) (given : DataType) (ref : Ref) :
    Term.Form Place → Resolving Unit
  | .unit members => do
    predeclare scope members
    resolveAll scope .unknown members
  | .method _ _ params body => do
    let inner ← openScope scope
    declareParams inner .parameter (fun type => (writtenTypeOf type).getD .unknown) params
    resolveSome inner .unknown body
  | .block statements => do
    let inner ← openScope scope
    predeclare inner statements
    resolveAll inner .unknown statements
  | .localDecl type declarators => resolveDeclarators scope (writtenTypeOf type) declarators
  | .forLoop declaration initializers condition incrementors body => do
    let inner ← openScope scope
    resolveSome inner .unknown declaration
    resolveAll inner .unknown initializers
    resolveSome inner .unknown condition
    resolveAll inner .unknown incrementors
    resolveSome inner .unknown body
  | .forEach type name collection body => do
    resolveSome scope .unknown collection
    let element := ((← get).childType collection).elementType
    let inner ← openScope scope
    discard (declare inner name .iterationVariable ((writtenTypeOf type).getD element) ref)
    resolveSome inner .unknown body
  | .lambda params body _ => do
    let inner ← openScope scope
    declareParams inner .lambdaParameter (fun _ => given) params
    resolveSome inner .unknown body
  | .invoke callee arguments => do
    resolveSome scope .unknown callee
    resolveAll scope ((← get).receiverType callee).elementType arguments
  | .argument _ value => resolveSome scope given value
  | .ident name => resolveName scope name ref
  | .typeRef _ _ _ | .int _ | .str _ | .bool _ | .null => return
  | .param child _ | .declarator _ child | .exprStmt child | .returnStmt child
  | .member child _ _ | .unary _ child | .paren child => resolveSome scope .unknown child
  | .whileLoop first second | .binary _ first second | .assign _ first second => do
    resolveSome scope .unknown first
    resolveSome scope .unknown second
  | .ifStmt condition thenBranch elseBranch => do
    resolveSome scope .unknown condition
    resolveSome scope .unknown thenBranch
    resolveSome scope .unknown elseBranch
  | .index receiver arguments => do
    resolveSome scope .unknown receiver
    resolveAll scope .unknown arguments

/-- Resolves an optional child. -/
def resolveSome (scope : ScopeId) (given : DataType) : Option Outline → Resolving Unit
  | none => return
  | some term => resolve scope given term

/-- Resolves nodes in order. -/
def resolveAll (scope : ScopeId) (given : DataType) : List Outline → Resolving Unit
  | [] => return
  | term :: terms => do
    resolve scope given term
    resolveAll scope given terms

/-- Resolves the declarators of a declaration, whose written type wins over that of the value. -/
def resolveDeclarators (scope : ScopeId) (written : Option DataType) :
    List Outline → Resolving Unit
  | [] => return
  | .node place (.declarator name value) :: terms => do
    enter scope place.ref
    resolveSome scope .unknown value
    settleLocal scope name (written.getD ((← get).childType value)) place.ref
    resolveDeclarators scope written terms
  | .node place _ :: terms => do
    enter scope place.ref
    resolveDeclarators scope written terms

end

/-- The model of a tree. -/
def build (tree : Tree) : Model :=
  match tree.root with
  | none => blank tree.size
  | root => (resolve rootScope .unknown (tree.outline root)).run (blank tree.size) |>.2

end Model

end Refactory
