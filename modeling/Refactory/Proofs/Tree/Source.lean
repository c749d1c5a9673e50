import Refactory.Proofs.Grammar.Parser

/-!
# Trees of source texts

A term is stored each node after its children, so that the numbers of the nodes follow the
post-order of the term and the root comes last. The list of a node is stored after everything below
the node, but the list of the parameters of a method before its body.
-/
namespace Refactory

namespace Tree

mutual

/-- Stores a term and gives its root. -/
def store : SourceTerm → Edit Ref
  | .node span form => do alloc (← storeForm form) span

/-- Stores what is below a node and gives the kind of the node. -/
def storeForm : Term.Form Span → Edit NodeKind
  | .unit members => return .unit (← allocList (← storeAll members))
  | .method result name params body => do
    let result ← storeSome result
    let params ← allocList (← storeAll params)
    return .method result name params (← storeSome body)
  | .param type name => return .param (← storeSome type) name
  | .typeRef name arguments rank =>
    return .typeRef name (← allocList (← storeAll arguments)) rank
  | .block statements => return .block (← allocList (← storeAll statements))
  | .localDecl type declarators => do
    let type ← storeSome type
    return .localDecl type (← allocList (← storeAll declarators))
  | .declarator name value => return .declarator name (← storeSome value)
  | .exprStmt expression => return .exprStmt (← storeSome expression)
  | .returnStmt value => return .returnStmt (← storeSome value)
  | .ifStmt condition thenBranch elseBranch => do
    let condition ← storeSome condition
    let thenBranch ← storeSome thenBranch
    return .ifStmt condition thenBranch (← storeSome elseBranch)
  | .whileLoop condition body => do
    let condition ← storeSome condition
    return .whileLoop condition (← storeSome body)
  | .forLoop declaration initializers condition incrementors body => do
    let declaration ← storeSome declaration
    let initializers ← storeAll initializers
    let condition ← storeSome condition
    let incrementors ← storeAll incrementors
    let body ← storeSome body
    let initializers ← allocList initializers
    return .forLoop declaration initializers condition (← allocList incrementors) body
  | .forEach type name collection body => do
    let type ← storeSome type
    let collection ← storeSome collection
    return .forEach type name collection (← storeSome body)
  | .int value => return .int value
  | .str contents => return .str contents
  | .bool value => return .bool value
  | .null => return .null
  | .ident name => return .ident name
  | .member receiver name conditional => return .member (← storeSome receiver) name conditional
  | .invoke callee arguments => do
    let callee ← storeSome callee
    return .invoke callee (← allocList (← storeAll arguments))
  | .argument modifier value => return .argument modifier (← storeSome value)
  | .index receiver arguments => do
    let receiver ← storeSome receiver
    return .index receiver (← allocList (← storeAll arguments))
  | .lambda params body parenthesized => do
    let params ← storeAll params
    let body ← storeSome body
    return .lambda (← allocList params) body parenthesized
  | .binary op left right => do
    let left ← storeSome left
    return .binary op left (← storeSome right)
  | .unary op operand => return .unary op (← storeSome operand)
  | .assign op target value => do
    let target ← storeSome target
    return .assign op target (← storeSome value)
  | .paren inner => return .paren (← storeSome inner)

/-- Stores an optional term and gives its root, or no node. -/
def storeSome : Option SourceTerm → Edit Ref
  | none => return none
  | some term => store term

/-- Stores terms and gives their roots. -/
def storeAll : List SourceTerm → Edit (List Ref)
  | [] => return []
  | term :: terms => do
    let first ← store term
    return first :: (← storeAll terms)

end

/-- The tree of a term, with versions from `clock` on. -/
def ofTerm (clock : Nat) (term : SourceTerm) : Tree :=
  ((do setRoot (← store term)) : Edit Unit).run (empty clock) |>.2

end Tree

end Refactory
