import Refactory.DataType
import Refactory.Tree

/-!
# Models of a program

A model knows what the names of a tree mean. It holds the declared symbols, numbered in the order
of their declaration; the scopes, each with its bindings and the scope around it; and for each node
the symbol it refers to, the symbol it declares, its type and the innermost scope around it. A
local is visible in the whole block that declares it, also before its declaration.

The answers are about the nodes of the tree that the model was built for: of nodes that were added
later it knows nothing.
-/
namespace Refactory

/-- The number of a declared symbol. Two references mean the same thing when they have the same
symbol; equal spelling is not enough. -/
abbrev SymbolId := Nat

/-- The number of a scope. -/
abbrev ScopeId := Nat

/-- What sort of thing a symbol is. -/
inductive SymbolKind where
  /-- A local variable. -/
  | local
  /-- A parameter of a method. -/
  | parameter
  /-- A parameter of a lambda. -/
  | lambdaParameter
  /-- The variable of a loop over elements. -/
  | iterationVariable
deriving DecidableEq, Inhabited

/-- The name of a sort of symbols. -/
def SymbolKind.name : SymbolKind → String
  | .local => "Local"
  | .parameter => "Parameter"
  | .lambdaParameter => "LambdaParameter"
  | .iterationVariable => "IterationVariable"

/-- What is known of a symbol. -/
structure Symbol where
  /-- The name that it was declared with. -/
  name : String
  /-- What sort of thing it is. -/
  kind : SymbolKind
  /-- Its type. -/
  type : DataType
  /-- The node that declares it. -/
  declaration : Ref
deriving Inhabited

/-- A part of the program with its own names. -/
structure Scope where
  /-- The scope around it. -/
  parent : Option ScopeId
  /-- The names bound here, the latest first. -/
  bindings : List (String × SymbolId)
deriving Inhabited

/-- What is known of a node. -/
structure Facts where
  /-- The symbol it refers to. -/
  reference : Option SymbolId
  /-- The symbol it declares. -/
  declared : Option SymbolId
  /-- Its type. -/
  type : DataType
  /-- The innermost scope around it. -/
  scope : Option ScopeId
deriving Inhabited

/-- What the names of a tree mean. -/
structure Model where
  /-- The symbols, each at its number. -/
  symbols : Array Symbol
  /-- The scopes, each at its number; the first is that of the unit. -/
  scopes : Array Scope
  /-- The facts of each node. -/
  facts : Array Facts

/-- Nothing is known. -/
def Facts.nothing : Facts := ⟨none, none, .unknown, none⟩

namespace Model

/-- The scope of the unit. -/
def rootScope : ScopeId := 0

/-- The model of a tree with a number of nodes, before anything is known of them. -/
def blank (size : Nat) : Model := ⟨#[], #[⟨none, []⟩], Array.replicate size .nothing⟩

/-- What is known of a node. -/
def factsOf (model : Model) (ref : Ref) : Facts :=
  match ref with
  | none => .nothing
  | some number => model.facts[number]?.getD .nothing

/-- The symbol that an identifier refers to. -/
def symbolOf (model : Model) (ref : Ref) : Option SymbolId := (model.factsOf ref).reference

/-- The symbol that a declarator, parameter or loop declares. -/
def declaredSymbol (model : Model) (ref : Ref) : Option SymbolId := (model.factsOf ref).declared

/-- The type of an expression. -/
def typeOf (model : Model) (ref : Ref) : DataType := (model.factsOf ref).type

/-- The type of a symbol. -/
def symbolType (model : Model) (symbol : SymbolId) : DataType :=
  match model.symbols[symbol]? with
  | some symbol => symbol.type
  | none => .unknown

/-- What a name is bound to in a scope or one of the first scopes around it. -/
def lookupWithin (model : Model) : Nat → ScopeId → String → Option SymbolId
  | 0, _, _ => none
  | bound + 1, scope, name => do
    let scope ← model.scopes[scope]?
    match scope.bindings.lookup name with
    | some symbol => some symbol
    | none => lookupWithin model bound (← scope.parent) name

/-- What a name is bound to in a scope. -/
def lookupIn (model : Model) (scope : ScopeId) (name : String) : Option SymbolId :=
  model.lookupWithin model.scopes.size scope name

/-- What a name would be bound to if it were written where a node is. -/
def lookupAt (model : Model) (position : Ref) (name : String) : Option SymbolId := do
  model.lookupIn (← (model.factsOf position).scope) name

/-- The number of nodes that refer to a symbol. -/
def referenceCount (model : Model) : Nat := model.facts.countP (·.reference.isSome)

end Model

end Refactory
