import Mathlib.Data.List.ReduceOption
import Refactory.Proofs.Refactoring.Preservation

/-!
# Looking for refactorings never fails

A change checks what the search before it has found, and comes upon a violation where the two
disagree. On a well-formed tree they agree, whatever the names are taken to mean: every attempt at a
node comes to an action or to nothing (`Context.exists_offered`), and so does looking for all
refactorings at a span (`Context.exists_actionsAt`). Nothing is said of nodes without a place in the
tree.
-/
namespace Refactory

open Term Refactory.Tree

namespace Tree.IsProgram

variable {tree : Tree} {whole : Outline} {span : Span}

/-- Below a node of a program are nodes of the program. -/
theorem children_subset {ref : Ref} (program : tree.IsProgram whole) (member : ref ∈ whole.refs) :
    tree.children ref ⊆ whole.refs := by
  obtain ⟨part, within, rfl⟩ := mem_refs.1 member
  rw [(program.stands.shows within).children]
  intro child isChild
  obtain ⟨term, held, rfl⟩ := List.mem_map.1 isChild
  exact mem_refs.2 ⟨term, subterms_child within held, rfl⟩

/-- The way down to the node that covers a span stays in the program. -/
theorem coveringBelow_mem (program : tree.IsProgram whole) (bound : Nat) {ref : Ref}
    (member : ref ∈ whole.refs) :
    tree.coveringBelow span bound ref ∈ whole.refs := by
  induction bound generalizing ref with
  | zero => exact member
  | succ bound ih =>
    rw [coveringBelow]
    split
    · rename_i found
      exact ih (program.children_subset member (List.mem_of_find?_eq_some found))
    · exact member

/-- The node that covers a span is a node of the program. -/
theorem covering?_mem (program : tree.IsProgram whole) {number : Nat}
    (covers : tree.covering? span = some number) :
    some number ∈ whole.refs := by
  rw [covering?] at covers
  split at covers
  · cases covers
  · rename_i root isRoot
    split at covers
    · rw [← covers]
      refine program.coveringBelow_mem _ ?_
      rw [← isRoot, ← program.root]
      exact ref_mem_refs whole
    · cases covers

end Tree.IsProgram

/-- Where each of several searches comes to something, all of them do one after the other. -/
theorem exists_mapM_ok {ε α β : Type} {search : α → Except ε β} {items : List α}
    (each : ∀ item ∈ items, ∃ result, search item = .ok result) :
    ∃ results, items.mapM search = .ok results ∧
      ∀ result, result ∈ results ↔ ∃ item ∈ items, search item = .ok result := by
  induction items with
  | nil => exact ⟨[], rfl, by simp⟩
  | cons item items ih =>
    obtain ⟨first, found⟩ := each item (.head _)
    obtain ⟨results, foundOthers, mem⟩ := ih fun other member => each other (.tail _ member)
    refine ⟨first :: results, ?_, fun result => ?_⟩
    · rw [List.mapM_cons, found]
      change Except.bind (items.mapM search) _ = _
      rw [foundOthers]
      rfl
    · simp [mem, found, eq_comm]

namespace Context

variable {context : Context} {ref : Ref}

/-- An attempt at a node of a well-formed tree comes to an action or to nothing. -/
theorem exists_offered (wellFormed : context.tree.WellFormed) (member : ref ∈ context.tree.attached)
    (refactoring : Refactoring) : ∃ offered, context.offered? refactoring ref = .ok offered := by
  obtain ⟨whole, program⟩ := wellFormed_iff.1 wellFormed
  rw [program.attached] at member
  obtain ⟨offered, log, come, -⟩ := context.attempt_gives refactoring program member #[]
  exact ⟨offered, congrArg Prod.fst come⟩

/-- Looking for all refactorings at a node of a well-formed tree gives what is offered there. -/
theorem exists_actionsAtNode (wellFormed : context.tree.WellFormed)
    (member : ref ∈ context.tree.attached) :
    ∃ actions, context.actionsAtNode ref = .ok actions ∧ ∀ action, action ∈ actions ↔
        ∃ refactoring, context.offered? refactoring ref = .ok (some action) := by
  obtain ⟨offers, found, mem⟩ := @exists_mapM_ok _ _ _ (context.offered? · ref) Refactoring.all
    fun refactoring _ => exists_offered wellFormed member refactoring
  refine ⟨offers.reduceOption, ?_, fun action => ?_⟩
  · rw [actionsAtNode, found]
    rfl
  · rw [List.reduceOption_mem_iff, mem]
    exact exists_congr fun refactoring => and_iff_right refactoring.mem_all

/-- Looking for all refactorings at a span of a well-formed tree gives what is offered at the node
that covers the span. -/
theorem exists_actionsAt (wellFormed : context.tree.WellFormed) (span : Span) :
    ∃ actions, context.actionsAt span = .ok actions ∧
      ∀ action, action ∈ actions ↔ ∃ number refactoring, context.tree.covering? span = some number ∧
        context.offered? refactoring (some number) = .ok (some action) := by
  rw [actionsAt]
  cases covers : context.tree.covering? span with
  | none => exact ⟨[], rfl, by simp⟩
  | some number =>
    obtain ⟨whole, program⟩ := wellFormed_iff.1 wellFormed
    have member := program.attached ▸ program.covering?_mem covers
    obtain ⟨actions, found, mem⟩ := exists_actionsAtNode wellFormed member
    exact ⟨actions, found, by simpa using mem⟩

end Context

/-- On a tree that is reached from a source text by refactorings, every attempt at a node comes to
an action or to nothing, whatever its log, and looking for all refactorings at a span gives what is
offered there. No violation is ever come upon. -/
theorem Reached.attempt_never_fails {tree : Tree} (reached : Reached tree) (settings : Settings) :
    (∀ refactoring, ∀ ref ∈ tree.attached, ∀ log, ∃ offered log',
      (Context.ofTree tree settings).attempt refactoring ref log = (.ok offered, log')) ∧
    ∀ span, ∃ actions, (Context.ofTree tree settings).actionsAt span = .ok actions ∧
      ∀ action, action ∈ actions ↔ ∃ number refactoring, tree.covering? span = some number ∧
        (Context.ofTree tree settings).offered? refactoring (some number) = .ok (some action) := by
  refine ⟨fun refactoring ref member log => ?_, Context.exists_actionsAt reached.wellFormed⟩
  obtain ⟨whole, program⟩ := wellFormed_iff.1 reached.wellFormed
  rw [program.attached] at member
  obtain ⟨offered, log', come, -⟩ :=
    (Context.ofTree tree settings).attempt_gives refactoring program member log
  exact ⟨offered, log', come⟩

/-- Neither an attempt to invert a quantifier back nor looking for all refactorings at the whole
text fails. -/
theorem inverted_attempt_never_fails : ∃ tree action,
    Tree.parse 0 "var q = xs.All(x => x > 0);" = .ok tree ∧
      (Context.ofTree tree {}).offered? .invertQuantifier tree.root = .ok (some action) ∧
      Reached action.result ∧ action.result.root ∈ action.result.attached ∧ (∃ offered log',
        (Context.ofTree action.result {}).attempt .invertQuantifier action.result.root #[]
        = (.ok offered, log')) ∧
      ∃ actions, (Context.ofTree action.result {}).actionsAt ⟨0, 27⟩ = .ok actions := by
  have offers : ((Tree.parse 0 "var q = xs.All(x => x > 0);").toOption.any fun tree =>
      tree.root ∈ tree.attached &&
        ((Context.ofTree tree {}).offered? .invertQuantifier tree.root).toOption.any
        (·.any fun action => action.result.root ∈ action.result.attached)) = true := by
    decide +kernel
  obtain ⟨tree, parsed, offers⟩ := (Option.any_eq_true _ _).1 offers
  obtain ⟨member, offers⟩ := Bool.and_eq_true_iff.1 offers
  obtain ⟨offered, isOffered, some⟩ := (Option.any_eq_true _ _).1 offers
  obtain ⟨action, rfl, inside⟩ := (Option.any_eq_true _ _).1 some
  replace isOffered := Context.eq_ok_of_toOption isOffered
  have reached : Reached action.result :=
    .refactor (.parse (Context.eq_ok_of_toOption parsed)) (of_decide_eq_true member) isOffered
  have inside := of_decide_eq_true inside
  obtain ⟨attempts, searches⟩ := reached.attempt_never_fails {}
  obtain ⟨actions, found, -⟩ := searches ⟨0, 27⟩
  exact ⟨tree, action, Context.eq_ok_of_toOption parsed, isOffered, reached, inside,
    attempts .invertQuantifier _ inside #[], actions, found⟩

end Refactory
