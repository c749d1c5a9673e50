import Refactory.Attempt
import Refactory.Code.Call

/-!
# Temporaries of call chains

`var a = x.F(); var b = a.G();` computes the same as `var b = x.F().G();` if `a` is used nowhere
else. Chaining inlines such temporaries, and unchaining introduces one for every call of a chain but
the last. Neither moves a call past an effect, nor to where it may be evaluated never or more than
once.
-/
namespace Refactory

/-- A temporary that is used once, in the statement after its declaration. -/
structure Link where
  /-- The declaration. -/
  declaration : Ref
  /-- The value. -/
  value : Ref
  /-- The use. -/
  use : Ref

/-- A declaration of one variable whose value is a call of a member. -/
structure CallDeclaration where
  /-- The declaration. -/
  declaration : Ref
  /-- The variable. -/
  symbol : SymbolId
  /-- The value. -/
  value : Ref

namespace Tree

/-- The parts of a declaration of one variable whose value is a call of a member. -/
def callDeclaration? (tree : Tree) (model : Model) (statement : Ref) : Option CallDeclaration :=
  match tree.kind statement with
  | .localDecl _ declarators =>
    match tree.items declarators with
    | [declarator] =>
      match tree.kind declarator with
      | .declarator _ value => do
        guard (tree.calledMember? value).isSome
        return ⟨statement, ← model.declaredSymbol declarator, value⟩
      | _ => none
    | _ => none
  | _ => none

/-- Whether a member of an expression is called. -/
def isCalledReceiver (tree : Tree) (ref : Ref) : Bool :=
  match tree.parent ref with
  | none => false
  | access =>
    match tree.kind access with
    | .member receiver _ _ =>
      receiver == ref &&
        match tree.parent access with
        | none => false
        | call =>
          match tree.kind call with
          | .invoke callee _ => callee == access
          | _ => false
    | _ => false

/-- The only use of a variable in a list of statements, if it is in the first of them, as the
receiver of a call that is evaluated before all else. -/
def soleReceiverUse? (tree : Tree) (model : Model) (symbol : SymbolId) : List Ref → Option Ref
  | [] => none
  | consumer :: later =>
    let uses := ((consumer :: later).flatMap tree.descendants).filter
      (model.symbolOf · == some symbol)
    match uses with
    | [use] =>
      if tree.isWithin use consumer && tree.isEvaluatedFirst use consumer &&
          tree.isCalledReceiver use then
        some use
      else
        none
    | _ => none

/-- The temporaries from a declaration on that are each used by the statement after it. The chain
goes on as long as each temporary is what the value of the next one starts from. -/
def linksFrom (tree : Tree) (model : Model) (temporary : CallDeclaration) : List Ref → List Link
  | [] => []
  | consumer :: later =>
    match tree.soleReceiverUse? model temporary.symbol (consumer :: later) with
    | none => []
    | some use =>
      ⟨temporary.declaration, temporary.value, use⟩ ::
        match tree.callDeclaration? model consumer with
        | some next =>
          if tree.spineRoot next.value = use then linksFrom tree model next later else []
        | none => []

/-- The temporaries at the front of a list of statements that can be inlined. -/
def leadingLinks (tree : Tree) (model : Model) : List Ref → List Link
  | [] => []
  | statement :: later =>
    match tree.callDeclaration? model statement with
    | some temporary => tree.linksFrom model temporary later
    | none => []

/-- The temporaries that can be inlined at the statement at a place of a list: the first ones that
reach from a place not after it to a place not before it. -/
def linksAt (tree : Tree) (model : Model) (statements : List Ref) (place : Nat) : List Link :=
  let found := (List.range (place + 1)).findSome? fun start =>
    let links := tree.leadingLinks model (statements.drop start)
    if !links.isEmpty && place ≤ start + links.length then some links else none
  found.getD []

/-- Whether something at a node or below it refers to a variable that a statement declares. -/
def readsDeclarationOf (tree : Tree) (model : Model) (statement ref : Ref) : Bool :=
  match tree.kind statement with
  | .localDecl _ declarators =>
    let declared := (tree.items declarators).filterMap model.declaredSymbol
    (tree.descendants ref).any fun ref => (model.symbolOf ref).any declared.contains
  | _ => false

/-- Whether a statement is one that temporaries can be put in front of. -/
def canFollowTemporaries (tree : Tree) (statement : Ref) : Bool :=
  let isSimple :=
    match tree.kind statement with
    | .exprStmt _ | .localDecl _ _ | .returnStmt _ => true
    | _ => false
  let isInLoop :=
    match tree.parent statement with
    | none => false
    | parent =>
      match tree.kind parent with
      | .forLoop _ _ _ _ _ | .whileLoop _ _ | .forEach _ _ _ _ => true
      | _ => false
  isSimple && !isInLoop

/-- The first chain of at least two calls at a node or below it, innermost call first. -/
def callChain? (tree : Tree) (ref : Ref) : Option (List Ref) :=
  (tree.descendants ref).findSome? fun ref =>
    some (tree.callSpine ref).reverse |>.filter (2 ≤ ·.length)

end Tree

namespace Link

/-- Puts the value of the temporary in the place of its use. -/
def inline (link : Link) : Change Unit := do
  let access := (← get).parent link.use
  Change.put access link.use link.value

/-- Removes the declaration of the temporary from a statement list. -/
def remove (list : Ref) (link : Link) : Change Unit := do
  Change.demand (← Tree.spliceChild list link.declaration []) .unlistedTemporary

end Link

namespace Temporary

/-- Calls the member that the next call of a chain calls on a temporary, and declares the temporary
as the value that the member was called on. -/
def introduce (name : String) (value next : Ref) : Change Ref := do
  let called ← Change.require ((← get).calledMember? next) .lostChainMember
  let receiver ← Build.ident name
  Tree.setKind called.access (.member receiver called.name called.conditional)
  Build.localDecl "var" name value

/-- Introduces temporaries for the calls of a chain, each of which is the value of one. -/
def introduceAll : List String → List Ref → Change (List Ref)
  | name :: names, call :: next :: calls => do
    let declaration ← introduce name call next
    return declaration :: (← introduceAll names (next :: calls))
  | _, _ => return []

/-- What is said of a number of temporaries. -/
def counted (count : Nat) : String :=
  if count = 1 then "temporary" else toString count ++ " temporaries"

end Temporary

namespace Context

/-- Inlines the temporaries around a statement at a place of a statement list. -/
def chainCallsAt (context : Context) (list : Ref) (place : Nat) : Attempt (Option Action) :=
  let tree := context.tree
  match tree.linksAt context.model (tree.children list) place with
  | [] => Attempt.refuse .noTemporaries
  | links =>
    let title := "Inline " ++ Temporary.counted links.length ++ " into call chain"
    context.offer .chainCalls title tree do
      links.forM Link.inline
      links.forM (Link.remove list)

/-- Inlines the temporaries around the statement of a node. -/
def chainCalls (context : Context) (ref : Ref) : Attempt (Option Action) :=
  let tree := context.tree
  let statement := tree.statementOf ref
  let list := tree.parent statement
  if list.isSome && tree.isStatementList list then
    match (tree.children list).idxOf? statement with
    | none => throw (.violation .unlistedStatement)
    | some place => context.chainCallsAt list place
  else
    return none

/-- Introduces temporaries for all calls of a chain but the last one. -/
def introduceTemporaries (context : Context) (statement : Ref) (calls : List Ref) :
    Attempt (Option Action) := do
  let names :=
    (context.namesAt statement).pickMany context.settings.temporary (calls.length - 1)
  Attempt.noteAll (names.map .namePicked)
  let title := "Introduce " ++ Temporary.counted names.length
  context.offer .unchainCalls title context.tree do
    let declarations ← Temporary.introduceAll names calls
    Change.putBefore statement declarations

/-- Introduces temporaries for the first chain of calls in the statement of a node, if the whole
chain is evaluated first and the part of it that moves uses no variable of the statement. -/
def unchainCalls (context : Context) (ref : Ref) : Attempt (Option Action) :=
  let tree := context.tree
  let statement := tree.statementOf ref
  if tree.canFollowTemporaries statement then
    match (tree.callChain? statement).map fun calls => (calls, calls.reverse) with
    | some (calls, outermost :: last :: _) =>
      if !tree.isEvaluatedFirst outermost statement then
        Attempt.refuse .deferredChain
      else if tree.readsDeclarationOf context.model statement last then
        Attempt.refuse .ownDeclaration
      else
        context.introduceTemporaries statement calls
    | _ => return none
  else
    return none

end Context

end Refactory
