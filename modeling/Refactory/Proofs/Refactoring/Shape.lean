import Refactory.Proofs.Refactoring.MirrorStatement
import Refactory.Proofs.Tree.Compact

/-!
# Refactorings see only shapes

Two well-formed trees of one shape may differ in the numbers of their nodes, in their spans and
versions, and in all that they store besides: nodes without a place, links that lead nowhere, lists
that nothing refers to. A refactoring takes no notice of it. At nodes with the same place in
pre-order it is offered in both trees or in neither, with one title and one log, and the results
have one shape (`Tree.attempt_alike`).
-/
namespace Refactory

open Refactory.Tree

/-- Two actions are of the same refactoring, say the same, and lead to trees of one shape. -/
structure Action.Alike (action other : Action) : Prop where
  /-- The refactoring. -/
  refactoring : other.refactoring = action.refactoring
  /-- The title. -/
  title : other.title = action.title
  /-- The shape of the result. -/
  shape : other.result.shape = action.result.shape

namespace Tree.Mirrors

variable {move : Nat → Nat} {small tree : Tree}

/-- The image of a well-formed tree has its shape. -/
theorem shape (mirrors : small.Mirrors move tree) (wellFormed : small.WellFormed) :
    tree.shape = small.shape := by
  obtain ⟨whole, program⟩ := wellFormed_iff.1 wellFormed
  have ends : small.Ends small.depthBound small.root := program.root ▸ program.stands.ends
  have same := mirrors.outlineWithin ends (ends.mono (Nat.succ_le_succ mirrors.size))
  have shapes := congrArg Term.shape same
  rw [Term.shape_map, Term.shape_map, ← mirrors.root] at shapes
  exact shapes

/-- An attempt at a node of a program comes to the same at the node of an image. -/
theorem attempt {whole : Outline} (mirrors : small.Mirrors move tree)
    (program : small.IsProgram whole)
    (settings : Settings) (refactoring : Refactoring) {ref : Ref} (member : ref ∈ whole.refs)
    (log : Log) :
    ∃ offered offered' log', (Context.ofTree small settings).attempt refactoring ref log =
    (.ok offered, log') ∧
      (Context.ofTree tree settings).attempt refactoring (ref.map move) log = (.ok offered', log') ∧
      Option.Rel Action.Alike offered offered' := by
  have grounded : small.Grounded small.root :=
    program.root ▸ program.grounded fun _ => Term.ref_mem_refs whole
  have contexts : (Context.ofTree small settings).Mirrors move (Context.ofTree tree settings) :=
    ⟨mirrors, mirrors.build grounded, rfl⟩
  obtain ⟨offered, log', come, isProgram⟩ :=
    (Context.ofTree small settings).attempt_gives refactoring program member log
  obtain ⟨offered', come', twins⟩ :=
    contexts.attempt program member refactoring log offered log' come
  refine ⟨offered, offered', log', come, come', ?_⟩
  cases twins with
  | none => exact .none
  | some twins =>
    exact .some
      ⟨twins.refactoring, twins.title, twins.result.shape (wellFormed_iff.2 (isProgram _ rfl))⟩

end Tree.Mirrors

namespace Tree

variable {left right : Tree} (wellFormed : left.WellFormed) (wellFormedRight : right.WellFormed)
  (same : left.shape = right.shape)

include wellFormed wellFormedRight same

/-- Trees of one shape have as many places. -/
theorem length_attached : left.attached.length = right.attached.length := by
  obtain ⟨small, compact, move, move', program, mirrors, mirrorsRight⟩ :=
    exists_compact wellFormed wellFormedRight same
  have grounded : small.Grounded small.root :=
    program.root ▸ program.grounded fun _ => Term.ref_mem_refs compact
  rw [mirrors.attached grounded, mirrorsRight.attached grounded, List.length_map, List.length_map]

/-- At nodes with the same place in trees of one shape, an attempt comes to the same. -/
theorem attempt_alike (settings : Settings) (refactoring : Refactoring) {place : Nat}
    {ref other : Ref}
    (here : left.attached[place]? = some ref) (there : right.attached[place]? = some other)
    (log : Log) :
    ∃ offered offered' log', (Context.ofTree left settings).attempt refactoring ref log =
    (.ok offered, log') ∧
      (Context.ofTree right settings).attempt refactoring other log = (.ok offered', log') ∧
      Option.Rel Action.Alike offered offered' := by
  obtain ⟨small, compact, move, move', program, mirrors, mirrorsRight⟩ :=
    exists_compact wellFormed wellFormedRight same
  have grounded : small.Grounded small.root :=
    program.root ▸ program.grounded fun _ => Term.ref_mem_refs compact
  rw [mirrors.attached grounded, List.getElem?_map, Option.map_eq_some_iff] at here
  rw [mirrorsRight.attached grounded, List.getElem?_map] at there
  obtain ⟨original, found, rfl⟩ := here
  obtain rfl : original.map move' = other := by simpa [found] using there
  have member : original ∈ compact.refs := program.attached ▸ List.mem_of_getElem? found
  obtain ⟨offered, offeredLeft, log', come, comeLeft, alikeLeft⟩ :=
    mirrors.attempt program settings refactoring member log
  obtain ⟨offered', offeredRight, log'', come', comeRight, alikeRight⟩ :=
    mirrorsRight.attempt program settings refactoring member log
  obtain ⟨same, rfl⟩ := Prod.mk.inj (come.symm.trans come')
  obtain rfl := Except.ok.inj same
  refine ⟨offeredLeft, offeredRight, log', comeLeft, comeRight, ?_⟩
  cases alikeLeft with
  | none =>
    cases alikeRight
    exact .none
  | some alikeLeft =>
    cases alikeRight with | some alikeRight => ?_
    exact .some ⟨alikeRight.refactoring.trans alikeLeft.refactoring.symm,
      alikeRight.title.trans alikeLeft.title.symm, alikeRight.shape.trans alikeLeft.shape.symm⟩

end Tree

end Refactory
