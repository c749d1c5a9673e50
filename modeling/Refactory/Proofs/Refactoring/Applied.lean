import Refactory.Proofs.Code.Denoting
import Refactory.Proofs.Naming
import Refactory.Proofs.Refactoring.Runs

/-!
# Functions applied to expressions

What merging makes of a function is its body with an expression in the place of the parameter. Where
the body is a call that passes the parameter in one of its arguments and does not use it besides,
this is the call with the expression passed there (`Term.passing`), whether a lambda is written over
the call (`Abstraction.computes_of_lambda`) or only what is called is named
(`Abstraction.computes_of_path`). A list of such functions is found as it is wanted for merging
(`CallRun.functionsOf?_of_computes`).
-/
namespace Refactory

open Term Refactory.Tree

namespace Term

/-- Where no place occurs twice, a part is in one child only. -/
theorem child_unique {outline child other part : Outline} (once : outline.refs.Nodup)
    (held : child ∈ outline.children)
    (heldOther : other ∈ outline.children) (inside : part ∈ child.subterms)
    (insideOther : part ∈ other.subterms) :
    child = other := by
  rw [refs_eq] at once
  by_contra differ
  exact disjoint_of_nodup (List.nodup_cons.1 once).2 held heldOther differ
    (mem_refs.2 ⟨part, inside, rfl⟩)
    (mem_refs.2 ⟨part, insideOther, rfl⟩)

/-- The shape of a call that passes an expression in one of its arguments. -/
def passing (call hole : Outline) (value : Shape) : Shape :=
  call.shapePutting (· == hole.ref) fun _ => .node () (.argument .plain (some value))

section

variable {call hole reference : Outline} {callee : Option Outline} {arguments : List Outline}
  (once : call.refs.Nodup) (form : call.kind = .invoke callee arguments) (held : hole ∈ arguments)
  (passes : hole.kind = .argument .plain (some reference))

include once form held passes

/-- Where everything that passes a test is in what one argument passes, this alone is changed. -/
theorem shapePutting_eq_passing {test : Ref → Bool} {put : Outline → Shape}
    (hits : ∀ part ∈ call.subterms, test part.ref = true → part ∈ reference.subterms) :
    call.shapePutting test put = call.passing hole (reference.shapePutting test put) := by
  have heldHole : hole ∈ call.children := by simp [Term.children, form, parts, held]
  have heldReference : reference ∈ hole.children := by simp [Term.children, passes, parts]
  have onceHole := once.sublist (refs_sublist (child_mem_subterms heldHole))
  have misses {part : Outline} (inside : part ∈ call.subterms)
      (outside : part ∉ reference.subterms) :
      test part.ref = false := Bool.eq_false_iff.2 fun hit => outside (hits part inside hit)
  have missesCall : test call.ref = false := misses (self_mem_subterms call) fun inside =>
    ref_ne_of_child once heldHole (mem_subterms_of_child heldReference inside) rfl
  have missesHole : test hole.ref = false := misses (child_mem_subterms heldHole) fun inside =>
    ref_ne_of_child onceHole heldReference inside rfl
  have apart : call.ref ≠ hole.ref := ref_ne_of_child once heldHole (self_mem_subterms hole)
  have others : ∀ child ∈ call.children, child.shapePutting test put
      = child.shapePutting (· == hole.ref) fun _ =>
        .node () (.argument .plain (some (reference.shapePutting test put))) := by
    intro child isChild
    by_cases same : child = hole
    · rw [same]
      rcases hole with ⟨note, kind⟩
      obtain rfl : kind = _ := passes
      rw [ref_node] at missesHole
      rw [shapePutting_node, shapePutting_node, missesHole]
      simp [mapChildren, Kind.slots, Kind.withSlots]
    · have disjoint {part : Outline} (inside : part ∈ child.subterms)
          (there : part ∈ hole.subterms) : False :=
        same (child_unique once isChild heldHole inside there)
      rw [shapePutting_eq_shape fun part inside => misses (mem_subterms_of_child isChild inside)
        fun there => disjoint inside (mem_subterms_of_child heldReference there)]
      refine (@shapePutting_eq_shape (· == hole.ref) _ child fun part inside =>
        beq_eq_false_iff_ne.2 fun here => ?_).symm
      have isHole : part = hole := subterm_unique once (mem_subterms_of_child isChild inside)
        (child_mem_subterms heldHole) here
      exact disjoint inside (isHole ▸ self_mem_subterms hole)
  rcases call with ⟨note, kind⟩
  rw [ref_node] at missesCall apart
  rw [passing, shapePutting_node, shapePutting_node, missesCall, beq_eq_false_iff_ne.2 apart]
  exact congrArg (node ()) (mapChildren_congr others)

end

/-- The shape of a call with one argument that passes an expression. -/
theorem passing_of_single {call callee hole : Outline} (once : call.refs.Nodup)
    (form : call.kind = .invoke (some callee) [hole]) (value : Shape) :
    call.passing hole value =
    .node () (.invoke (some callee.shape) [.node () (.argument .plain (some value))]) := by
  rcases call with ⟨note, kind⟩
  obtain rfl : kind = _ := form
  have apart : note.ref ≠ hole.ref ∧ ∀ part ∈ callee.subterms, part.ref ≠ hole.ref := by
    simp only [refs_node, parts, Kind.slots, List.flatMap_cons, List.flatMap_nil, Slot.terms,
      Option.toList_some, List.append_nil, List.singleton_append, List.nodup_cons, List.mem_append,
      not_or, List.nodup_append'] at once
    exact ⟨fun same => once.1.2 (same ▸ ref_mem_refs hole), fun part inside same =>
      once.2.2.2 (mem_refs.2 ⟨part, inside, rfl⟩) (same ▸ ref_mem_refs hole)⟩
  have unchanged : callee.shapePutting (· == hole.ref)
      (fun _ => .node () (.argument .plain (some value))) = callee.shape :=
    shapePutting_eq_shape fun part inside => beq_eq_false_iff_ne.2 (apart.2 part inside)
  rcases hole with ⟨here, kind⟩
  rw [ref_node] at apart unchanged
  rw [passing, shapePutting_node, if_neg (by simpa using apart.1)]
  simp [mapChildren, Kind.slots, Kind.withSlots, unchanged, shapePutting_node]

/-- What a call passes in an argument does not count for the shape of the call that passes something
else there. -/
theorem passing_refill {call hole value : Outline} :
    (refill hole value call).passing (.node hole.note (.argument .plain (some value))) =
    call.passing hole := by
  funext passed
  rw [passing, passing, refill]
  have sameRef : (node hole.note (.argument .plain (some value)) : Outline).ref = hole.ref := rfl
  rw [sameRef]
  induction call using Term.induction with
  | step place form ih =>
    rw [swap_node, shapePutting_node place form]
    by_cases here : place.ref = hole.ref
    · rw [if_pos here, if_pos (beq_iff_eq.2 here), shapePutting_node]
      simp only [show hole.note.ref = hole.ref from rfl, beq_self_eq_true, if_true]
    · rw [if_neg here, shapePutting_node, if_neg (by simpa using here),
        if_neg (by simpa using here), mapChildren_mapChildren]
      exact congrArg (node ()) (mapChildren_congr ih)

end Term

namespace Abstraction

/-- However a tree grows, an expression denotes a function that can be composed at every place, and
we are told what its body is with an expression in the place of the parameter. The parameter has a
name if the function is written as a lambda. -/
def Computes (tree : Tree) (model : Model) (placeholder name : String) (value : Outline)
    (fill : Shape → Shape) : Prop :=
  ∀ grown, Frame [] [] tree grown →
    ∃ function after, of? model placeholder value.ref grown = (some function, after) ∧
    (∀ place, function.isComposable after model place = true) ∧
    function.filled after model = (fun passed => some (fill passed)) ∧
    (function.referent.isSynthesized = false → function.param = name)

section

variable {tree : Tree} {model : Model} {placeholder name : String}

/-- A function of a lambda over a call whose parameter is used just once, in what the call
passes. -/
theorem computes_of_lambda {lambda param call hole reference : Outline}
    {type callee : Option Outline}
    {arguments : List Outline} {parenthesized : Bool} {symbol : SymbolId}
    (stands : tree.Stands lambda) (form : lambda.kind = .lambda [param] (some call) parenthesized)
    (isParam : param.kind = .param type name)
    (declares : model.declaredSymbol param.ref = some symbol)
    (formCall : call.kind = .invoke callee arguments)
    (held : hole ∈ arguments) (passes : hole.kind = .argument .plain (some reference))
    (hits : ∀ part ∈ call.subterms, (Referent.symbol symbol).isAt tree model part.ref
      = (part.ref == reference.ref)) :
    Computes tree model placeholder name lambda (call.passing hole) := by
  intro grown frame
  have heldCall : call ∈ lambda.children := by simp [Term.children, form, parts]
  have heldHole : hole ∈ call.children := by simp [Term.children, formCall, parts, held]
  have heldReference : reference ∈ hole.children := by simp [Term.children, passes, parts]
  have referenceInside : reference ∈ call.subterms :=
    mem_subterms_of_child heldHole (child_mem_subterms heldReference)
  have standsBefore := stands.subterm (child_mem_subterms heldCall)
  have standsCall := standsBefore.of_growth frame
  have isOf : IsOf model ⟨name, .symbol symbol, call.ref⟩ lambda := ⟨param, call, type,
    parenthesized, symbol, form, isParam, by simp [formCall], declares, rfl, rfl⟩
  -- The parameter is used once however much is added to the tree.
  have hits : ∀ part ∈ call.subterms, (Referent.symbol symbol).isAt grown model part.ref
      = (part.ref == reference.ref) := fun part inside =>
    ((standsBefore.shows inside).isAt_eq (standsCall.shows inside) _ _).trans (hits part inside)
  refine ⟨_, grown, CallRun.of?_of_lambda (stands.of_growth frame).shown isOf, fun place =>
    ?_, ?_, fun _ => rfl⟩
  · have strips : grown.stripParens call.ref = call.ref :=
      standsCall.shown.here.stripParens_of_kind (by
      rcases call with ⟨note, kind⟩
      obtain rfl : kind = _ := formCall
      simp [Term.kind, shape_node])
    have isInvoke : isCall grown call.ref = true := by
      have depicts := standsCall.shown.here.depicts
      rw [formCall] at depicts
      obtain ⟨range, isInvoke, -⟩ := depicts.of_invoke
      rw [isCall, isInvoke]
    have references :
        (Referent.symbol symbol).references grown model call.ref = [reference.ref] := by
      have same : call.refs.filter ((Referent.symbol symbol).isAt grown model)
          = call.refs.filter (· == reference.ref) :=
        List.filter_congr fun ref member => by
          obtain ⟨part, inside, rfl⟩ := mem_refs.1 member
          exact hits part inside
      rw [Referent.references, standsCall.descendants, same, List.filter_beq,
        List.count_eq_one_of_mem standsCall.once (mem_refs.2 ⟨reference, referenceInside, rfl⟩)]
      rfl
    simp [isComposable, strips, isInvoke, references]
  · funext passed
    have hasBody : HasBody ⟨name, .symbol symbol, call.ref⟩ (some call) := ⟨rfl, by simp⟩
    have isValue := standsCall.isArgumentValue (child_mem_subterms heldHole) passes
    have named : filling (.symbol symbol) grown model passed call
        = call.shapePutting (· == reference.ref) fun _ => passed :=
      shapePutting_congr hits fun part _ here => by
        rw [beq_iff_eq.1 here, isValue]
        simp
    have whole : reference.shapePutting (· == reference.ref) (fun _ => passed) = passed := by
      rcases reference with ⟨note, kind⟩
      rw [shapePutting_node]
      simp
    rw [hasBody.filled (StandsAll.singleton_iff.2 standsCall), Option.map_some, named,
      shapePutting_eq_passing standsCall.once formCall held passes fun part inside here =>
      ?_, whole]
    rw [subterm_unique standsCall.once inside referenceInside (beq_iff_eq.1 here)]
    exact self_mem_subterms reference

/-- The function that a path names, which is called with one argument. -/
theorem computes_of_path {root path call hole : Outline} {members : List String}
    (stored : tree.Stored)
    (stands : tree.Stands path) (isPath : IsPath root members path) (once : call.refs.Nodup)
    (form : call.kind = .invoke (some path) [hole]) :
    Computes tree model placeholder name path (call.passing hole) := by
  intro grown frame
  have standsPath := stands.of_growth frame
  obtain ⟨found, after, come, -, isFound⟩ :=
    @of?_finds model placeholder grown (some path) (frame.stored stored)
      (StandsAll.singleton_iff.2 standsPath)
  have noLambda : grown.simpleLambda? path.ref = none := by
    by_contra isLambda
    obtain ⟨lambda, isLambda⟩ := Option.ne_none_iff_exists'.1 isLambda
    obtain ⟨_, _, _, form, -⟩ := (simpleLambda?_iff standsPath.shown).1 isLambda
    exact isPath.kind_ne_lambda _ _ _ form
  have isSome := of?_isSome model placeholder grown path.ref
  rw [noLambda, standsPath.isStablePath isPath, show of? model placeholder path.ref grown
    = _ from come] at isSome
  obtain ⟨function, rfl⟩ := Option.isSome_iff_exists.1 isSome
  obtain ⟨body, -, finds, _, ⟨⟩, denotes⟩ := isFound function rfl
  cases denotes with
  | written _ formLambda => exact absurd formLambda (isPath.kind_ne_lambda _ _ _)
  | @named call' path' reference _ _ _ copies isName isCall =>
    have standsCall := finds.stands.each call' (.head _)
    refine ⟨_, after, come, isComposable_named isCall standsCall isName, ?_, nofun⟩
    funext passed
    rw [(hasBody_named isCall standsCall).filled (StandsAll.singleton_iff.2 standsCall),
      Option.map_some, filling_named isCall standsCall isName, copies, passing_of_single once form]

end

end Abstraction

/-- Calls that pass functions of which we are told what they are pass functions that can be
merged. -/
theorem CallRun.functionsOf?_of_computes {tree grown : Tree} {model : Model}
    {placeholder name : String} {place : Nat} {calls : List Ref} {values : List Outline}
    {fills : List (Shape → Shape)} (stored : grown.Stored) (frame : Frame [] [] tree grown)
    (computes : List.Forall₂ (Abstraction.Computes tree model placeholder name) values fills)
    (passes : List.Forall₂ grown.PassesAt calls (values.map some)) (all : grown.StandsAll values) :
    ∃ functions after,
    functionsOf? model placeholder (Merging.projections.accepts model) place calls grown
        = (some functions, after) ∧ Frame [] [] grown after ∧
      functions.map (·.filled after model) = fills.map (fun fill passed => some (fill passed)) ∧
      ∀ function ∈ functions, function.referent.isSynthesized = false → function.param = name := by
  induction computes generalizing grown place calls with
  | nil =>
    obtain rfl := List.forall₂_nil_right_iff.1 passes
    exact ⟨[], grown, rfl, .refl grown, rfl, nofun⟩
  | @cons value fill values fills computes _ ih =>
    obtain ⟨call, calls, isPassed, passesOthers, rfl⟩ := List.forall₂_cons_right_iff.1 passes
    obtain ⟨standsValue, standing, -⟩ := StandsAll.cons_iff.1 all
    obtain ⟨function, middle, come, composable, isFilled, isName⟩ := computes grown frame
    obtain ⟨_, _, found, grows, isFound⟩ :=
      @Abstraction.of?_finds model placeholder grown (some value) stored
        (StandsAll.singleton_iff.2 standsValue)
    obtain ⟨rfl, rfl⟩ := Prod.mk.inj (come.symm.trans found)
    obtain ⟨body, hasBody, finds, -⟩ := isFound function rfl
    obtain ⟨functions, after, comeOthers, growsOthers, areFilled, areNamed⟩ :=
      @ih middle (place + 1) calls (grows.stored stored) (frame.grow grows)
        (passesOthers.imp fun _ _ passes => passes.of_frame grows) (standing.of_frame grows)
    refine ⟨function :: functions, after, ?_, grows.grow growsOthers, ?_,
      List.forall_mem_cons.2 ⟨isName, areNamed⟩⟩
    · rw [functionsOf?_cons calls isPassed.singleArgument? come, Option.elim_some, if_pos
        (show Merging.projections.accepts model middle function place = true from composable place),
        comeOthers]
      rfl
    · rw [List.map_cons, List.map_cons, areFilled,
        hasBody.filled_eq finds.stands (finds.stands.of_frame growsOthers), isFilled]

/-- The parameter of a merged function keeps the name of a function that is written as a lambda or
gets one that is free. -/
theorem Context.mergedParameter_cases {context : Context} {scratch : Tree} {run : CallRun}
    {name : String} (named : ∀ function ∈ run.functions, function.referent.isSynthesized = false →
      function.param = name)
    (free : ∃ candidate ∈ context.settings.lambdaParameter.candidates NameScope.searchLimit,
      (context.namesAt run.outer).isFree candidate = true) :
    ∃ given, Attempt.Gives (context.mergedParameter scratch run) (· = given) ∧
      (given = name ∨ (context.namesAt run.outer).isFree given = true) := by
  rw [mergedParameter]
  split
  · rename_i kept isKept
    refine ⟨kept, .pure rfl, .inl ?_⟩
    obtain ⟨isWritten, -⟩ := Option.filter_eq_some_iff.1 isKept
    obtain ⟨function, found, rfl⟩ := Option.map_eq_some_iff.1 isWritten
    exact named function (List.mem_of_find?_eq_some found) (by simpa using List.find?_some found)
  · set picked := (context.namesAt run.outer).pick [] context.settings.lambdaParameter with isPick
    refine ⟨picked.1, (Attempt.pickName_gives _ _ _).bind fun given isGiven => .pure ?_, .inr ?_⟩
    · rw [isGiven]
    · refine NameScope.isFree_pick ?_
      rwa [List.nil_append]

end Refactory
