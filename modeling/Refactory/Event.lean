import Refactory.Code.Hazard
import Refactory.Refactoring

/-!
# Events

What happens while a refactoring is looked for is logged as events: what was read, why something
that looked like a match was passed over, which names were chosen and what was offered at last.
-/
namespace Refactory

/-- How much an event matters. -/
inductive Level where
  /-- Of interest for following every step. -/
  | trace
  /-- Of interest for following what was done. -/
  | debug
deriving DecidableEq, Inhabited

/-- The name of a level. -/
def Level.name : Level → String
  | trace => "TRACE"
  | debug => "DEBUG"

/-- Why a refactoring is not offered. -/
inductive Refusal where
  /-- There are no filters to merge. -/
  | noWhereRun
  /-- There is no filter to split. -/
  | noWhereConjunction
  /-- There are no projections to merge. -/
  | noSelectRun
  /-- There is no projection to split. -/
  | noSelectComposition
  /-- There is no quantifier whose predicate can be negated. -/
  | noQuantifier
  /-- There are no temporaries to inline. -/
  | noTemporaries
  /-- It is not known how to index a collection. -/
  | unknownCollection
  /-- A chain of calls may be evaluated never, more than once or after other effects. -/
  | deferredChain
  /-- A chain of calls uses a variable that is declared by the same statement. -/
  | ownDeclaration
  /-- A loop over elements has a hazard. -/
  | elementLoop (hazard : Hazard)
deriving DecidableEq, Inhabited

/-- What is said of a refusal. -/
def Refusal.message : Refusal → String
  | noWhereRun => "no Where chain"
  | noWhereConjunction => "no Where conjunction"
  | noSelectRun => "no composable Select chain"
  | noSelectComposition => "no nested Select projection"
  | noQuantifier => "no invertible All/Any call"
  | noTemporaries => "no single-use temporaries"
  | unknownCollection => "collection type unknown"
  | deferredChain => "call chain is not evaluated unconditionally"
  | ownDeclaration => "call chain reads a local declared by its statement"
  | elementLoop hazard => "element loop rejected hazard=" ++ hazard.description

/-- Something that happens while a refactoring is looked for. -/
inductive Event where
  /-- A source text was read as a tree. -/
  | parsed (nodes : Nat)
  /-- The names of a tree were resolved. -/
  | modelBuilt (symbols references scopes : Nat)
  /-- A run of calls was passed over. -/
  | runRejected (calls : Nat)
  /-- A counted loop was passed over. -/
  | loopRejected (hazard : Hazard)
  /-- The refactoring is not offered. -/
  | refused (refusal : Refusal)
  /-- A new name was chosen. -/
  | namePicked (name : String)
  /-- A name took the place of the elements of a collection. -/
  | elementsNamed (count : Nat)
  /-- The refactoring is offered. -/
  | offered (refactoring : Refactoring) (title : String)
deriving DecidableEq, Inhabited

namespace Event

/-- How much the event matters. -/
def level : Event → Level
  | modelBuilt _ _ _ | offered _ _ => .debug
  | _ => .trace

/-- What is said of the event. -/
def message : Event → String
  | parsed nodes => "parsed compilation unit nodes=" ++ toString nodes
  | modelBuilt symbols references scopes =>
    "built semantic model symbols=" ++ toString symbols ++ " references=" ++ toString references ++
      " scopes=" ++ toString scopes
  | runRejected calls => "rejected combinator run calls=" ++ toString calls
  | loopRejected hazard => "counted loop rejected hazard=" ++ hazard.description
  | refused refusal => refusal.message
  | namePicked name => "picked fresh name name=" ++ name
  | elementsNamed count => "element accesses rewritten replaced=" ++ toString count
  | offered refactoring title =>
    "refactoring offered kind=" ++ refactoring.name ++ " title=" ++ title

/-- The line of a log for the event. -/
def line (event : Event) : String := event.level.name ++ " " ++ event.message

/-- The event of reading a tree. -/
def ofTree (tree : Tree) : Event := parsed tree.size

/-- The event of building a model. -/
def ofModel (model : Model) : Event :=
  modelBuilt model.symbols.size model.referenceCount model.scopes.size

end Event

end Refactory
