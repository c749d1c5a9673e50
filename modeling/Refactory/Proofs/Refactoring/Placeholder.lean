import Refactory.Proofs.Code.Denoting
import Refactory.Proofs.Refactoring.Runs
import Refactory.Proofs.Refactoring.Shape

/-!
# The name that stands for a parameter

A path that is passed as a function is merged as a lambda that calls it with a parameter, and the
settings say what this parameter is called until the merged function gets its own. The name leaves
no trace, be it one that the program uses, the name of the merged parameter, or no name at all:
whatever it is, a refactoring is offered or not, and the results have one shape and one title
(`refactoring_ignores_placeholder`).
-/
namespace Refactory

open Term Refactory.Tree

/-- The settings with another name for parameters that are made up. -/
def Settings.withPlaceholder (settings : Settings) (placeholder : String) : Settings :=
    { settings with placeholder }

/-- The same tree and model, with another name for parameters that are made up. -/
def Context.withPlaceholder (context : Context) (placeholder : String) : Context :=
  { context with settings := context.settings.withPlaceholder placeholder }

/-- Which predicates are merged does not depend on what their parameters are called. -/
theorem Merging.filters_treatsAlike (model : Model) : (filters.accepts model).TreatsAlike :=
    fun _ _ _ _ _ _ => rfl

/-- Nor does it for projections. -/
theorem Merging.projections_treatsAlike (model : Model) : (projections.accepts model).TreatsAlike :=
  fun _ _ _ _ place alike => alike.isComposable_eq place

namespace Abstraction

variable {left right : Tree} {model : Model} {functions functions' : List Abstraction}
  (alike : List.Forall₂ (Alike left right) functions functions')

include alike

/-- Lists of functions that are alike capture the same names. -/
theorem all_captures_eq
    (name : String) : (functions'.all fun function => !function.captures right model name)
    = functions.all fun function => !function.captures left model name := by
  induction alike with
  | nil => rw [List.all_nil, List.all_nil]
  | cons here _ ih => rw [List.all_cons, List.all_cons, here.captures_eq, ih]

/-- The first of them that is written as a lambda is the same. -/
theorem find?_written_eq : (functions'.find? fun function => !function.referent.isSynthesized)
    = functions.find? fun function => !function.referent.isSynthesized := by
  induction alike with
  | nil => rfl
  | @cons function function' _ _ here _ ih =>
    rw [List.find?_cons, List.find?_cons, here.isSynthesized_eq, ih]
    cases isWritten : function.referent.isSynthesized with
    | true => rfl
    | false => rw [here.eq_of_isWritten isWritten]

/-- Their bodies come to the same with expressions in the places of the parameters. -/
theorem map_filled_eq :
    functions'.map (·.filled right model) = functions.map (·.filled left model) := by
  induction alike with
  | nil => rfl
  | cons here _ ih => rw [List.map_cons, List.map_cons, here.filled_eq, ih]

end Abstraction

namespace Context

variable {context : Context} {placeholder : String} {whole : Outline}

/-- The parameter of a merged function gets the same name. -/
theorem mergedParameter_withPlaceholder {left right : Tree} {run run' : CallRun}
    (alike : CallRun.Alike whole left right run run') :
    (context.withPlaceholder placeholder).mergedParameter right run' =
    context.mergedParameter left run := by
  have kept := funext fun name =>
    @Abstraction.all_captures_eq left right context.model _ _ alike.functions name
  rw [mergedParameter, mergedParameter, Abstraction.find?_written_eq alike.functions, alike.outer]
  simp only [withPlaceholder, kept]
  rfl

/-- Changes that come to trees of one shape are offered alike. -/
theorem offer_tracks {other : Context} {refactoring : Refactoring} {title : String}
    {start start' after after' : Tree}
    {change change' : Change Unit} (changed : change start = .ok ((), after))
    (changed' : change' start' = .ok ((), after')) (same : after'.shape = after.shape) :
    Attempt.Tracks (context.offer refactoring title start change)
      (other.offer refactoring title start' change') (Option.Rel Action.Alike) := by
  rw [offer, offer, StateT.run, StateT.run, changed, changed']
  exact (Attempt.Tracks.same _).bind fun _ _ _ => .pure (.some ⟨rfl, rfl, same⟩)

/-- Merging around a node is offered with either name for parameters that are made up or with none,
and comes to the same. -/
theorem merge_withPlaceholder {merging : Merging}
    {join : String → List (Shape → Option Shape) → Option Shape}
    (joins : merging.Joins join) (treats : (merging.accepts context.model).TreatsAlike) {ref : Ref}
    (program : context.tree.IsProgram whole) (member : ref ∈ whole.refs) :
    Attempt.Tracks (context.merge merging ref)
    ((context.withPlaceholder placeholder).merge merging ref) (Option.Rel Action.Alike) := by
  have inside := program.statementOf_mem member
  obtain ⟨search, search', left, right, searched, searched', rejected, found⟩ :=
    @CallRun.search_alike context.model context.settings.placeholder placeholder _ treats
    merging.method _ _ program _ inside
  obtain ⟨_, _, came, frame, isFound⟩ :=
    @CallRun.search_stands context.model context.settings.placeholder
    merging.method (merging.accepts context.model) _ _ _ program inside
  obtain ⟨rfl, rfl⟩ := Prod.mk.inj (searched.symm.trans came)
  obtain ⟨_, _, came', frame', isFound'⟩ := @CallRun.search_stands context.model placeholder
    merging.method (merging.accepts context.model) _ _ _ program inside
  obtain ⟨rfl, rfl⟩ := Prod.mk.inj (searched'.symm.trans came')
  have searches : (CallRun.search context.model
      (context.withPlaceholder placeholder).settings.placeholder merging.method
    (context.tree.statementOf ref) (merging.accepts context.model)) context.tree
    = (search', right) := searched'
  rw [merge, merge, StateT.run, StateT.run, searched]
  simp only [show (context.withPlaceholder placeholder).tree = context.tree from rfl,
    show (context.withPlaceholder placeholder).model = context.model from rfl, searches, rejected]
  refine (Attempt.Tracks.same _).bind fun _ _ _ => ?_
  generalize isSearch : search.found = run at found
  generalize isSearch' : search'.found = run' at found
  cases found with
  | none => exact (Attempt.Tracks.same _).bind fun _ _ _ => .pure .none
  | @some run run' alike =>
    obtain ⟨outer, anchor, bodies, stands, -⟩ := isFound run isSearch
    obtain ⟨outer', anchor', bodies', stands', -⟩ := isFound' run' isSearch'
    dsimp only
    rw [mergedParameter_withPlaceholder alike,
      show run'.functions.length = run.functions.length from alike.functions.length_eq.symm]
    refine (Attempt.Tracks.same _).bind fun name _ same => same ▸ ?_
    have grown := program.of_frame frame
    have grown' := program.of_frame frame'
    obtain ⟨after, merged, changed, places, isMerged⟩ := stands.merge joins.combines name grown
    obtain ⟨after', merged', changed', places', isMerged'⟩ :=
      stands'.merge joins.combines name grown'
    refine offer_tracks changed changed' ?_
    obtain rfl : outer' = outer := subterm_unique program.stands.once stands'.within stands.within
      (stands'.isOuter.trans (alike.outer.trans stands.isOuter.symm))
    -- The member access belongs to the program, which stands in both trees.
    obtain ⟨access, isPart, isAccess⟩ := mem_refs.1 alike.member
    have isAnchor : anchor = access := by
      rw [← (stands.standing.each anchor (.head _)).outline,
        ← (grown.stands.subterm isPart).outline, stands.isAnchor, isAccess]
    have isAnchor' : anchor' = access := by
      rw [← (stands'.standing.each anchor' (.head _)).outline,
        ← (grown'.stands.subterm isPart).outline, stands'.isAnchor, alike.anchor, isAccess]
    rw [Tree.shape, Tree.shape, places.program.outline_root, places'.program.outline_root]
    refine shape_swap_congr ?_ whole
    rw [stands'.shape_merged joins grown'.stored isMerged', stands.shape_merged joins grown.stored
      isMerged, Abstraction.map_filled_eq alike.functions, isAnchor, isAnchor']

theorem firstSafe_withPlaceholder (loops : List CountedLoop) :
    (context.withPlaceholder placeholder).firstSafe loops = context.firstSafe loops := by
  induction loops with
  | nil => rfl
  | cons loop loops ih =>
    rw [firstSafe, firstSafe, ih]
    rfl

theorem forToForEach_withPlaceholder (ref : Ref) :
    (context.withPlaceholder placeholder).forToForEach ref = context.forToForEach ref := by
  rw [forToForEach, forToForEach, firstSafe_withPlaceholder]
  rfl

/-- Whatever parameters that are made up are called, attempts come to the same. Only merging looks
at the name. -/
theorem attempt_withPlaceholder {ref : Ref} (program : context.tree.IsProgram whole)
    (member : ref ∈ whole.refs)
    (refactoring : Refactoring) : Attempt.Tracks (context.attempt refactoring ref)
      ((context.withPlaceholder placeholder).attempt refactoring ref)
      (Option.Rel Action.Alike) := by
  have same (attempt : Attempt (Option Action)) :
      Attempt.Tracks attempt attempt (Option.Rel Action.Alike) :=
    (Attempt.Tracks.same attempt).mono fun offered _ same => same ▸ by
      cases offered with
      | none => exact .none
      | some action => exact .some ⟨rfl, rfl, rfl⟩
  cases refactoring with
  | mergeWhere =>
    exact merge_withPlaceholder Merging.filters_joins (Merging.filters_treatsAlike _) program member
  | mergeSelect =>
    exact merge_withPlaceholder Merging.projections_joins (Merging.projections_treatsAlike _)
      program member
  | splitWhere => exact same (context.splitFilter ref)
  | splitSelect => exact same (context.splitProjection ref)
  | invertQuantifier => exact same (context.invertQuantifier ref)
  | forToForEach =>
    change Attempt.Tracks (context.forToForEach ref)
      ((context.withPlaceholder placeholder).forToForEach ref) _
    rw [forToForEach_withPlaceholder]
    exact same _
  | forEachToFor => exact same (context.forEachToFor ref)
  | chainCalls => exact same (context.chainCalls ref)
  | unchainCalls => exact same (context.unchainCalls ref)

end Context

/-- Whatever parameters that are made up are called, a refactoring is offered at a node of a program
or declined, with the same log, and the results have one shape and one title. -/
theorem refactoring_ignores_placeholder {tree : Tree} (wellFormed : tree.WellFormed)
    (settings : Settings) (placeholder : String)
    (refactoring : Refactoring) {ref : Ref} (member : ref ∈ tree.attached) (log : Log) :
    ∃ offered offered' log', (Context.ofTree tree settings).attempt refactoring ref log =
    (.ok offered, log') ∧
      (Context.ofTree tree (settings.withPlaceholder placeholder)).attempt refactoring ref log
        = (.ok offered', log') ∧ Option.Rel Action.Alike offered offered' := by
  obtain ⟨whole, program⟩ := wellFormed_iff.1 wellFormed
  rw [program.attached] at member
  obtain ⟨offered, log', come, -⟩ :=
    (Context.ofTree tree settings).attempt_gives refactoring program member log
  obtain ⟨offered', come', alike⟩ :=
    @Context.attempt_withPlaceholder (Context.ofTree tree settings) placeholder whole ref program
    member refactoring log offered log' come
  exact ⟨offered, offered', log', come, come', alike⟩

/-- A path is merged with a lambda alike when its parameter is made up with the name that the lambda
gives to its own. -/
theorem merging_ignores_placeholder_of_parameter : ∃ tree action action' log,
    Tree.parse 0 "q.Select(f).Select(x => g(x));" = .ok tree ∧
      (Context.ofTree tree {}).attempt .mergeSelect tree.root #[] = (.ok (some action), log) ∧
      (Context.ofTree tree (Settings.withPlaceholder {} "x")).attempt .mergeSelect tree.root #[]
        = (.ok (some action'), log) ∧ action.Alike action' := by
  have facts : (Tree.parse 0 "q.Select(f).Select(x => g(x));").toOption.any (fun tree =>
      tree.root ∈ tree.attached
        && ((Context.ofTree tree {}).offered? .mergeSelect tree.root).toOption.any (·.isSome))
        = true := by
    decide +kernel
  obtain ⟨tree, parsed, facts⟩ := exists_of_any facts
  simp only [Bool.and_eq_true, decide_eq_true_eq] at facts
  obtain ⟨attached, some⟩ := facts
  obtain ⟨offered, offered', log, come, come', alike⟩ :=
    refactoring_ignores_placeholder (wellFormed_of_parse parsed) {} "x" .mergeSelect attached #[]
  have outcome : (Context.ofTree tree {}).offered? .mergeSelect tree.root = .ok offered :=
    congrArg Prod.fst come
  rw [outcome] at some
  cases alike with
  | none => cases some
  | some alike => exact ⟨tree, _, _, log, parsed, come, come', alike⟩

end Refactory
