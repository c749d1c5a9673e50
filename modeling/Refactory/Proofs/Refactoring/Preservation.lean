import Refactory.Proofs.Refactoring.Loop
import Refactory.Proofs.Refactoring.Merge
import Refactory.Proofs.Refactoring.Projection
import Refactory.Proofs.Refactoring.Quantifier
import Refactory.Proofs.Refactoring.Unchain

/-!
# Refactorings keep trees well formed

Whatever refactoring is offered at a node of a program, its result is a program again
(`Context.attempt_gives`). So the tree of a source text stays well formed however many refactorings
are done (`Reached.isProgram`).
-/
namespace Refactory

open Term Refactory.Tree

namespace Context

/-- An attempt at a node of a program comes upon no violation, and what it offers is a program. -/
theorem attempt_gives {context : Context} {whole : Outline} {ref : Ref} (refactoring : Refactoring)
    (program : context.tree.IsProgram whole) (member : ref ∈ whole.refs) :
    Attempt.Gives (context.attempt refactoring ref) OffersProgram := by
  cases refactoring with
  | mergeWhere => exact merge_gives Merging.filters_combines program member
  | splitWhere => exact splitFilter_gives program member
  | mergeSelect => exact merge_gives Merging.projections_combines program member
  | splitSelect => exact splitProjection_gives program member
  | invertQuantifier => exact invertQuantifier_gives program member
  | forToForEach => exact forToForEach_gives program member
  | forEachToFor => exact forEachToFor_gives program member
  | chainCalls =>
    have offers :=
      @chainCalls_offers _ _ (fun _ => True) _ program member (fun _ _ _ _ _ => trivial)
      fun _ _ _ => trivial
    refine offers.mono fun offered isOffered action isAction => ?_
    obtain ⟨term, isProgram, -⟩ := isOffered action isAction
    exact ⟨term, isProgram⟩
  | unchainCalls =>
    refine (unchainCalls_offers program member).mono fun offered isOffered action isAction => ?_
    obtain ⟨term, isProgram, -⟩ := isOffered action isAction
    exact ⟨term, isProgram⟩

/-- What an outcome is when it is there. -/
theorem eq_ok_of_toOption {ε α : Type} {outcome : Except ε α} {result : α}
    (found : outcome.toOption = some result) :
    outcome = .ok result := by
  cases outcome with
  | error => exact absurd found.symm (Option.some_ne_none _)
  | ok _ => exact congrArg _ (Option.some.inj found)

/-- The result of what is offered has what the attempt comes to. -/
theorem of_offered {context : Context} {refactoring : Refactoring} {ref : Ref} {action : Action}
    {post : Tree → Prop}
    (yields : Attempt.Yields (context.attempt refactoring ref) (Offers post))
    (offered : context.offered? refactoring ref = .ok (some action)) : post action.result :=
  yields #[] (some action) (context.attempt refactoring ref #[]).2 (Prod.ext offered rfl) action rfl

/-- What is offered at a node of a well-formed tree has a well-formed tree for its result. -/
theorem wellFormed_of_offered {context : Context} {refactoring : Refactoring} {ref : Ref}
    {action : Action}
    (wellFormed : context.tree.WellFormed) (member : ref ∈ context.tree.attached)
    (offered : context.offered? refactoring ref = .ok (some action)) :
    action.result.WellFormed := by
  obtain ⟨whole, program⟩ := wellFormed_iff.1 wellFormed
  rw [program.attached] at member
  exact wellFormed_iff.2
    (of_offered (context.attempt_gives refactoring program member).yields offered)

end Context

/-- The trees that come of source texts by refactorings, each of which is offered for the tree
before. -/
inductive Reached : Tree → Prop
  /-- The tree of a source text. -/
  | parse {clock : Nat} {source : String} {tree : Tree}
    (parsed : Tree.parse clock source = .ok tree) : Reached tree
  /-- The result of a refactoring at a node. -/
  | refactor {tree : Tree} {settings : Settings} {refactoring : Refactoring} {ref : Ref}
      {action : Action}
      (before : Reached tree) (member : ref ∈ tree.attached)
      (offered : (Context.ofTree tree settings).offered? refactoring ref = .ok (some action)) :
      Reached action.result

/-- The tree of a source text is well formed. -/
theorem Tree.wellFormed_of_parse {clock : Nat} {source : String} {tree : Tree}
    (parsed : Tree.parse clock source = .ok tree) : tree.WellFormed := by
  obtain ⟨-, outline, -, program, -⟩ := exists_isProgram_of_parse parsed
  exact wellFormed_iff.2 ⟨outline, program⟩

/-- All trees that are reached are well formed. -/
theorem Reached.wellFormed {tree : Tree} (reached : Reached tree) : tree.WellFormed := by
  induction reached with
  | parse parsed => exact wellFormed_of_parse parsed
  | refactor _ member offered ih => exact Context.wellFormed_of_offered ih member offered

/-- A source text gives a well-formed tree, every offered refactoring makes a well-formed tree of a
well-formed tree, and so all trees that are reached are well formed. -/
theorem refactoring_keeps_wellFormed :
    (∀ clock source tree, Tree.parse clock source = .ok tree → tree.WellFormed) ∧
    (∀ tree settings refactoring ref action, tree.WellFormed → ref ∈ tree.attached →
      (Context.ofTree tree settings).offered? refactoring ref = .ok (some action) →
        action.result.WellFormed) ∧
    ∀ tree, Reached tree → tree.WellFormed := by
  refine ⟨fun _ _ _ =>
    wellFormed_of_parse, fun tree settings refactoring ref action wellFormed member offered =>
    ?_, fun _ => Reached.wellFormed⟩
  exact @Context.wellFormed_of_offered (.ofTree tree settings) _ _ _ wellFormed member offered

/-- Inlining a temporary of a source text. -/
theorem inlining_keeps_wellFormed : ∃ tree action,
    Tree.parse 0 "var a = x.F(); var b = a.G();" = .ok tree ∧
      (Context.ofTree tree {}).offered? .chainCalls (some 5) = .ok (some action) ∧
      tree.WellFormed ∧ action.result.WellFormed := by
  have offers : ((Tree.parse 0 "var a = x.F(); var b = a.G();").toOption.any fun tree =>
      some 5 ∈ tree.attached &&
        ((Context.ofTree tree {}).offered? .chainCalls (some 5)).toOption.any (·.isSome))
        = true := by
    decide +kernel
  obtain ⟨tree, parsed, offers⟩ := (Option.any_eq_true _ _).1 offers
  obtain ⟨member, offers⟩ := Bool.and_eq_true_iff.1 offers
  obtain ⟨offered, isOffered, some⟩ := (Option.any_eq_true _ _).1 offers
  obtain ⟨action, rfl⟩ := Option.isSome_iff_exists.1 some
  replace parsed := Context.eq_ok_of_toOption parsed
  replace isOffered := Context.eq_ok_of_toOption isOffered
  obtain ⟨ofParse, ofOffered, -⟩ := refactoring_keeps_wellFormed
  have wellFormed := ofParse _ _ tree parsed
  exact ⟨tree, action, parsed, isOffered, wellFormed,
    ofOffered tree _ _ _ action wellFormed (of_decide_eq_true member) isOffered⟩

end Refactory
