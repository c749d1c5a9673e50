import Refactory.Proofs.Code.CallRun
import Refactory.Proofs.Code.Placing
import Refactory.Proofs.Refactoring.Attempt

/-!
# Merging keeps programs

Merging a run of calls in a program gives a program (`Context.merge_gives`): the merged call is made
of the member access and the function bodies of the run, which stand apart from each other and
within the outermost call. What shape the merged body has is told by the bodies alone
(`Merging.Joins`).
-/
namespace Refactory

open Term Refactory.Tree Abstraction

variable {merging : Merging}

/-- The body of the merged function is made of the bodies of functions that can be merged. -/
def Merging.Combines (merging : Merging) : Prop :=
  ∀ (model : Model) (name : String) (first : Abstraction) (others : List Abstraction)
    (bodies : List (Option Outline)) (tree : Tree),
    List.Forall₂ HasBody (first :: others) bodies →
    (∀ function ∈ first :: others, ∃ tree place, merging.accepts model tree function place) →
    tree.Stored → tree.StandsAll (bodies.flatMap Option.toList) →
    Makes (merging.combine model name first others) tree (bodies.flatMap Option.toList) IsOptional

/-- The shape of the body of the merged function is made of what the bodies are with an expression
in the place of the parameter. -/
def Merging.Joins (merging : Merging)
    (join : String → List (Shape → Option Shape) → Option Shape) : Prop :=
  ∀ (model : Model) (name : String) (first : Abstraction) (others : List Abstraction)
    (bodies : List (Option Outline)) (tree : Tree),
    List.Forall₂ HasBody (first :: others) bodies →
    (∀ function ∈ first :: others, ∃ tree place, merging.accepts model tree function place) →
    tree.Stored → tree.StandsAll (bodies.flatMap Option.toList) →
    Makes (merging.combine model name first others) tree (bodies.flatMap Option.toList)
      (IsShaped (join name ((first :: others).map (·.filled tree model))))

/-- A body with a shape is a body. -/
theorem Merging.Joins.combines {join : String → List (Shape → Option Shape) → Option Shape}
    (joins : merging.Joins join) : merging.Combines :=
  fun model name first others bodies tree haveBodies accepted stored all =>
    (joins model name first others bodies tree haveBodies accepted stored all).mono
      fun _ _ ⟨new, isResult, isOutput, _⟩ => ⟨new, isResult, isOutput⟩

/-- The conjunction of predicates over a parameter of one name. -/
def Shape.conjunctionOver (name : String) : List (Shape → Option Shape) → Option Shape
  | [] => none
  | first :: others => conjoined ((first (.node () (.ident name))).map operand)
      (others.map fun fill => (fill (.node () (.ident name))).map operand)

/-- The composition of functions over a parameter of one name. -/
def Shape.compositionOver (name : String) : List (Shape → Option Shape) → Option Shape
  | [] => none
  | first :: others => others.foldl Option.bind (first (.node () (.ident name)))

/-- A call of a method with a lambda over a body. -/
def Shape.mergedCall (anchor : Shape) (name : String) (body : Option Shape) : Shape :=
  .node () (.invoke (some anchor) [.node ()
    (.argument .plain (some (.node () (.lambda [.node () (.param none name)] body false))))])

theorem Merging.filters_joins : filters.Joins Shape.conjunctionOver := by
  intro model name first others bodies tree haveBodies _ stored all
  refine (conjoin_makes name haveBodies stored all).mono fun _ _ made => ?_
  simpa only [Shape.conjunctionOver, List.map_cons, List.map_map, Function.comp_def] using made

theorem Merging.filters_combines : filters.Combines := filters_joins.combines

/-- A function that can be composed has a body. -/
theorem HasBody.exists_of_isComposable {function : Abstraction} {body : Option Outline}
    {tree : Tree}
    {model : Model} {place : Nat} (hasBody : function.HasBody body)
    (composable : function.isComposable tree model place) : ∃ term, body = some term := by
  cases body with
  | some term => exact ⟨term, rfl⟩
  | none =>
    rw [isComposable, show function.body = none from hasBody.1] at composable
    cases composable

theorem Merging.projections_joins : projections.Joins Shape.compositionOver := by
  intro model name first others bodies tree haveBodies accepted stored all
  obtain ⟨terms, rfl, haveTerms⟩ : ∃ terms : List Outline, bodies = terms.map some ∧
      List.Forall₂ (fun function body => function.HasBody (some body)) (first :: others) terms := by
    generalize first :: others = functions at haveBodies accepted
    clear all
    induction haveBodies with
    | nil => exact ⟨[], rfl, .nil⟩
    | @cons function body functions bodies hasBody _ ih =>
      obtain ⟨terms, rfl, haveTerms⟩ := ih fun other member => accepted other (.tail _ member)
      obtain ⟨tree, place, composable⟩ := accepted function (.head _)
      obtain ⟨term, rfl⟩ := HasBody.exists_of_isComposable hasBody composable
      exact ⟨term :: terms, rfl, .cons hasBody haveTerms⟩
  have same : (terms.map some).flatMap Option.toList = terms := by
    simp [List.flatMap_map]
  rw [same] at all ⊢
  exact compose_makes name haveTerms stored all

theorem Merging.projections_combines : projections.Combines := projections_joins.combines

namespace CallRun

/-- A call on a member access with a lambda over a body, which was combined in some tree. -/
def IsMerged (anchor : Outline) (name : String) (combined : Ref × Tree) (merged : Outline) : Prop :=
  ∃ place argument lambda param body, combined.1 = refOf body ∧ combined.2.StandsAll body.toList ∧
    merged = .node place (.invoke (some anchor) [.node argument (.argument .plain
      (some (.node lambda (.lambda [.node param (.param none name)] body false))))])

/-- The merged call is made of the member access and of the bodies of the functions. -/
theorem mergedCall_makes (combines : merging.Combines) {model : Model} {run : CallRun} {tree : Tree}
    {anchor : Outline} {bodies : List (Option Outline)} (name : String)
    (haveBodies : List.Forall₂ HasBody run.functions bodies)
    (accepted : ∀ function ∈ run.functions, ∃ tree place, merging.accepts model tree function place)
    (stored : tree.Stored) (all : tree.StandsAll (bodies.flatMap Option.toList ++ [anchor])) :
    Makes (do
      let body ← merging.combine model name run.first run.others
      let param ← Build.param name
      let lambda ← Build.lambda param body false
      Build.invoke anchor.ref [lambda]) tree (bodies.flatMap Option.toList ++ [anchor])
      fun result outputs =>
        ∃ merged, result = merged.ref ∧ outputs = [merged] ∧
          IsMerged anchor name (merging.combine model name run.first run.others tree) merged := by
  obtain ⟨_, _, combined, edited, combines, body, rfl, rfl⟩ :=
    combines model name _ _ bodies tree haveBodies accepted stored (StandsAll.append_iff.1 all).1
  have both := combines.append all
  have rest : Makes (do
      let param ← Build.param name
      let lambda ← Build.lambda param (refOf body) false
      Build.invoke anchor.ref [lambda]) combined (body.toList ++ [anchor]) fun result outputs =>
        ∃ merged, result = merged.ref ∧ outputs = [merged] ∧
        IsMerged anchor name (refOf body, combined) merged := by
    refine (Build.param_makes (combines.frame.stored stored) name).bind_new
      (combines.frame.stored stored) both.stands ?_
    rintro _ _ named ⟨param, rfl, rfl⟩ - stored all
    set parameter : Outline := .node param (.param none name)
    refine (Build.lambda_makes false stored (StandsAll.append_iff.1 (?_ : named.StandsAll
      ((parameter :: body.toList) ++ [anchor]))).1).bind stored all ?_
    · exact all
    rintro _ _ last ⟨lambda, rfl, rfl⟩ - stored all
    set function : Outline := .node lambda (.lambda [parameter] body false)
    have invoked :=
      @Build.invoke_makes last (some anchor) [function] stored (all.perm (.swap _ _ _))
    refine (invoked.perm (.swap _ _ _)).mono fun _ _ isInvoke => ?_
    obtain ⟨_, areArguments, place, rfl, rfl⟩ := isInvoke
    obtain ⟨_, _, ⟨argument, rfl⟩, none, rfl⟩ := List.forall₂_cons_left_iff.1 areArguments
    cases none
    exact ⟨_, rfl, rfl, place, argument, lambda, param, body, rfl, combines.stands, rfl⟩
  obtain ⟨_, _, after, made, builds, merged, rfl, rfl, isMerged⟩ := rest
  refine ⟨_, _, after, ?_, both.trans builds, merged, rfl, rfl, edited ▸ isMerged⟩
  rw [Edit.bind_apply, edited]
  exact made

/-- Merging a run in a program gives a program in which the merged call has the place of the run,
and spares all else. -/
theorem Stands.merge (combines : merging.Combines) {model : Model} {run : CallRun}
    {tree : Tree} {whole outer anchor : Outline} {bodies : List (Option Outline)} (name : String)
    (program : tree.IsProgram whole)
    (stands : run.Stands (merging.accepts model) whole tree outer anchor bodies) :
    ∃ after merged, run.merge merging model name tree = .ok ((), after) ∧
      tree.Places after whole outer merged ∧
      IsMerged anchor name (merging.combine model name run.first run.others tree) merged := by
  have all := stands.standing.perm (List.perm_append_singleton anchor _).symm
  obtain ⟨_, _, middle, made, builds, merged, rfl, rfl, isMerged⟩ :=
    mergedCall_makes combines name stands.haveBodies stands.accepted program.stored all
  have reworks := builds.reworks (List.Subset.refl _)
  have prepares := reworks.prepares program fun ref inWhole inScope => by
    refine stands.origin ref ?_ inWhole
    exact ((List.perm_append_singleton anchor _).flatMap_right refs).mem_iff.1 inScope
  obtain ⟨after, put, isProgram, spares, -⟩ := prepares.put program stands.within
  refine ⟨after, merged, ?_, ⟨stands.within, isProgram, spares⟩, isMerged⟩
  rw [stands.isOuter] at put
  rw [stands.isAnchor] at made
  rw [← put, show middle = (_ : Ref × Tree).2 from (congrArg Prod.snd made).symm,
    show merged.ref = (_ : Ref × Tree).1 from (congrArg Prod.fst made).symm]
  rfl

/-- The shape of the merged call is told by the shapes of the member access and of the bodies of the
functions. -/
theorem IsMerged.shape {join : String → List (Shape → Option Shape) → Option Shape}
    (joins : merging.Joins join) {model : Model} {first : Abstraction} {others : List Abstraction}
    {tree : Tree} {anchor merged : Outline} {bodies : List (Option Outline)} {name : String}
    (stored : tree.Stored)
    (haveBodies : List.Forall₂ HasBody (first :: others) bodies)
    (accepted : ∀ function ∈ first :: others, ∃ tree place,
      merging.accepts model tree function place)
    (all : tree.StandsAll (bodies.flatMap Option.toList))
    (isMerged : IsMerged anchor name (merging.combine model name first others tree) merged) :
    merged.shape = Shape.mergedCall anchor.shape name
    (join name ((first :: others).map (·.filled tree model))) := by
  obtain ⟨_, _, combined, edited, builds, new, rfl, rfl, isJoined⟩ :=
    joins model name _ _ bodies tree haveBodies accepted stored all
  rw [edited] at isMerged
  obtain ⟨place, argument, lambda, param, body, same, standing, rfl⟩ := isMerged
  obtain rfl : body = new := by
    refine @eq_of_refOf_eq combined _ _ (fun term held => ?_) (fun term held => ?_) same.symm
    · exact (standing.each term (by simpa using held)).shown
    · exact (builds.stands.each term (by simpa using held)).shown
  rw [← isJoined, Shape.mergedCall]
  cases body <;> simp [shape_node, mapForm]

/-- So it is where the functions are those of a run that was found. -/
theorem Stands.shape_merged {join : String → List (Shape → Option Shape) → Option Shape}
    (joins : merging.Joins join) {model : Model} {run : CallRun} {tree : Tree}
    {whole outer anchor merged : Outline}
    {bodies : List (Option Outline)} {name : String} (stored : tree.Stored)
    (stands : run.Stands (merging.accepts model) whole tree outer anchor bodies)
    (isMerged : IsMerged anchor name
      (merging.combine model name run.first run.others tree) merged) :
    merged.shape =
    Shape.mergedCall anchor.shape name (join name (run.functions.map (·.filled tree model))) :=
  isMerged.shape joins stored stands.haveBodies stands.accepted
    (StandsAll.cons_iff.1 stands.standing).2.1

end CallRun

namespace Context

theorem mergedParameter_gives (context : Context) (scratch : Tree) (run : CallRun) :
    Attempt.Gives (context.mergedParameter scratch run) fun _ => True := by
  rw [mergedParameter]
  split
  · exact .pure trivial
  · exact (Attempt.pickName_gives _ _ _).bind fun _ _ => .pure trivial

/-- Merging the calls around a node of a program puts the merged call in the place of a call to
which one ascends from the statement of the node, where it is offered. -/
theorem merge_places {context : Context} {merging : Merging} (combines : merging.Combines)
    {whole : Outline}
    {ref : Ref} (program : context.tree.IsProgram whole) (member : ref ∈ whole.refs) :
    Attempt.Gives (context.merge merging ref)
    (Offers fun result => ∃ call ∈ whole.subterms, ∃ outer merged,
      call.ref ∈ context.tree.descendants (context.tree.statementOf ref) ∧ Ascends call outer ∧
      context.tree.Places result whole outer merged) := by
  obtain ⟨search, scratch, searched, frame, isFound⟩ := @CallRun.search_stands
    context.model context.settings.placeholder merging.method
    (merging.accepts context.model) _ _ _ program
    (program.statementOf_mem member)
  rw [merge, StateT.run, searched]
  refine (Attempt.noteAll_gives _).bind fun _ _ => ?_
  cases found : search.found with
  | none => exact Attempt.refuse_offers _
  | some run =>
    obtain ⟨outer, anchor, bodies, stands, -, call, isPart, isBelow, ascends⟩ := isFound run found
    refine (mergedParameter_gives context scratch run).bind fun name _ => ?_
    obtain ⟨after, merged, changed, places, -⟩ :=
      stands.merge combines name (program.of_frame frame)
    exact offer_offers ⟨after, changed, call, isPart, outer, merged, isBelow, ascends,
      places.after_growth program frame⟩

/-- Merging the calls around a node of a program gives a program where it is offered. -/
theorem merge_gives {context : Context} {merging : Merging} (combines : merging.Combines)
    {whole : Outline}
    {ref : Ref} (program : context.tree.IsProgram whole) (member : ref ∈ whole.refs) :
    Attempt.Gives (context.merge merging ref) OffersProgram := by
  refine (merge_places combines program member).mono fun offered offers action isOffered => ?_
  obtain ⟨_, -, _, _, -, -, places⟩ := offers action isOffered
  exact ⟨_, places.program⟩

end Context

end Refactory
