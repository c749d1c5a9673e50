import Refactory.Code.Build
import Refactory.Code.Call
import Refactory.Code.Expression
import Refactory.Code.Referent

/-!
# Abstractions

The argument of a combinator call is a function. An abstraction is that function as a parameter and
a body, however it is written: a simple lambda is one as it stands, and a path that names a function
`f` stands for the lambda that calls `f` with its parameter, which is made up for the purpose.
-/
namespace Refactory

/-- A function as a parameter and a body. -/
structure Abstraction where
  /-- The name of the parameter. -/
  param : String
  /-- What references to the parameter refer to. -/
  referent : Referent
  /-- The body. -/
  body : Ref

namespace Abstraction

/-- Whether something in the body would be mistaken for the parameter if this were renamed to a
name: a use of something else with that name, or a parameter that declares it. -/
def captures (function : Abstraction) (tree : Tree) (model : Model) (name : String) : Bool :=
  (tree.descendants function.body).any fun ref =>
    match tree.kind ref with
    | .ident used => used == name && !function.referent.isAt tree model ref
    | .param _ declared => declared == name
    | _ => false

/-- The function that an expression denotes, if it is a simple lambda or a stable path. The body for
a path is built with a copy of the path, which itself stays where it is. -/
def of? (model : Model) (placeholder : String) (value : Ref) : Edit (Option Abstraction) := do
  let tree ← get
  match tree.simpleLambda? value with
  | some lambda =>
    return (model.declaredSymbol lambda.param).map fun symbol =>
      ⟨lambda.name, .symbol symbol, lambda.body⟩
  | none =>
    if tree.isStablePath value then
      let path ← Tree.duplicate value
      let reference ← Build.ident placeholder
      let body ← Build.invoke path [reference]
      return some ⟨placeholder, .synthesized reference, body⟩
    else
      return none

end Abstraction

end Refactory
