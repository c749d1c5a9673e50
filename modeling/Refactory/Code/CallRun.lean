import Refactory.Code.Abstraction

/-!
# Runs of combinator calls

A run is two or more calls of one method, each on the result of the one before, as in
`xs.Where(a).Where(b)`, where every call has one plain argument that denotes a function. A run is
maximal: neither what it starts from nor what is called on its result is such a call.
-/
namespace Refactory

/-- A run of calls. -/
structure CallRun where
  /-- The outermost call, in whose place the merged call is put. -/
  outer : Ref
  /-- The member access of the innermost call. -/
  anchor : Ref
  /-- The function that is the argument of the innermost call. -/
  first : Abstraction
  /-- The functions that are the arguments of the other calls, innermost first. -/
  others : List Abstraction

/-- What a search for a run has come to. -/
structure RunSearch where
  /-- The numbers of calls of the runs that were passed over. -/
  rejected : List Nat
  /-- The run that was found. -/
  found : Option CallRun

namespace Tree

/-- The call of the method on the result of a call. -/
def callAround? (tree : Tree) (method : String) (call : Ref) : Option Ref :=
  match tree.parent call with
  | none => none
  | access =>
    match tree.kind access with
    | .member receiver name _ =>
      let around := tree.parent access
      if receiver = call && name = method && tree.isCallOf method around then some around else none
    | _ => none

/-- The last of the calls of the method each on the result of the one before, at most so many. -/
def outermostCallWithin (tree : Tree) (method : String) : Nat → Ref → Ref
  | 0, call => call
  | bound + 1, call =>
    match tree.callAround? method call with
    | some around => outermostCallWithin tree method bound around
    | none => call

/-- The last of the calls of the method each on the result of the one before. -/
def outermostCall (tree : Tree) (method : String) (call : Ref) : Ref :=
  tree.outermostCallWithin method tree.depthBound call

/-- The calls of the method from a call down its receivers, outermost first, at most so many, each
with its member access. -/
def callsDownWithin (tree : Tree) (method : String) : Nat → Ref → List (Ref × CalledMember)
  | 0, _ => []
  | bound + 1, call =>
    if tree.isCallOf method call then
      match tree.calledMember? call with
      | some called => (call, called) :: callsDownWithin tree method bound called.receiver
      | none => []
    else
      []

/-- The calls of the maximal run that a call belongs to, innermost first, each with its member
access. -/
def runCalls (tree : Tree) (method : String) (call : Ref) : List (Ref × CalledMember) :=
  (tree.callsDownWithin method tree.depthBound (tree.outermostCall method call)).reverse

/-- Whether a call is made on the result of another call of the method. -/
def isOnCallOf (tree : Tree) (method : String) (call : Ref) : Bool :=
  (tree.calledMember? call).any fun called => tree.isCallOf method called.receiver

end Tree

namespace CallRun

/-- The functions that are the arguments of the calls, innermost first. -/
def functions (run : CallRun) : List Abstraction := run.first :: run.others

/-- A test of the functions of a run, each with its place in the run. -/
abbrev Acceptance := Tree → Abstraction → Nat → Bool

/-- The functions that the arguments of calls denote, if all of them denote functions which pass the
test, the first of them at the given place. -/
def functionsOf? (model : Model) (placeholder : String) (accepts : Acceptance) :
    Nat → List Ref → Edit (Option (List Abstraction))
  | _, [] => return some []
  | place, call :: calls => do
    let some value := (← get).singleArgument? call | return none
    let some function ← Abstraction.of? model placeholder value | return none
    if accepts (← get) function place then
      let others ← functionsOf? model placeholder accepts (place + 1) calls
      return others.map (function :: ·)
    else
      return none

/-- Searches for a run among candidates for its outermost call, leaving out the calls that belong to
runs which were passed over. -/
def searchAmong (model : Model) (placeholder method : String) (accepts : Acceptance) :
    List Ref → List Ref → Edit RunSearch
  | _, [] => return ⟨[], none⟩
  | seen, candidate :: candidates => do
    let tree ← get
    if seen.contains candidate || !tree.isOnCallOf method candidate then
      searchAmong model placeholder method accepts seen candidates
    else
      let calls := tree.runCalls method candidate
      let refs := calls.map (·.1)
      match calls.head?, ← functionsOf? model placeholder accepts 0 refs with
      | some (_, called), some (first :: others) =>
        return ⟨[], some ⟨tree.outermostCall method candidate, called.access, first, others⟩⟩
      | _, _ =>
        let search ← searchAmong model placeholder method accepts (refs ++ seen) candidates
        return { search with rejected := calls.length :: search.rejected }

/-- Searches a node and everything below it for the first run of calls of a method whose functions
pass a test. -/
def search (model : Model) (placeholder method : String) (container : Ref)
    (accepts : Acceptance) : Edit RunSearch := do
  searchAmong model placeholder method accepts [] ((← get).callsOf method container)

end CallRun

end Refactory
