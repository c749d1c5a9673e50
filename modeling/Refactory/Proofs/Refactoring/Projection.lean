import Refactory.Proofs.Code.Layers
import Refactory.Proofs.Refactoring.Split

/-!
# Splitting projections keeps programs

The calls of a composition lie within each other, each in an argument of the one around it
(`Tree.Nested`). The functions of the new run are made of them from the inside out: a call whose
inner call has become a function gets a name in its place, and so it stands apart from what was made
before. What the functions are in the end is told layer by layer (`LambdaCall.Composes`).
-/
namespace Refactory

variable {layers : List Layer} {whole : Outline}

namespace Tree

open Term

/-- A layer is a call that passes a value in one of its arguments, without anything of a sort in the
callee and in what the other arguments pass. -/
structure IsLayer (uses : Ref → Bool) (layer : Layer) (call hole : Outline)
    (value callee : Option Outline)
    (arguments : List Outline) : Prop where
  /-- The call is where it is said to be. -/
  isCall : layer.call = call.ref
  /-- So is the argument. -/
  isHole : layer.hole = hole.ref
  /-- The call has a callee and arguments. -/
  form : call.kind = .invoke callee arguments
  /-- The argument is one of them. -/
  held : hole ∈ arguments
  /-- It is plain and passes the value. -/
  passes : hole.kind = .argument .plain value
  /-- The callee has nothing of the sort. -/
  free : uses (refOf callee) = false
  /-- What the other arguments pass has nothing of the sort either. -/
  others : ∀ other ∈ arguments, other.ref ≠ hole.ref →
    ∀ modifier passed, other.kind = .argument modifier passed →
    uses (refOf passed) = false

section

variable (tree : Tree) (model : Model) (referent : Referent)

/-- Calls that each pass the next one in one of their arguments, and the innermost one the
parameter. -/
inductive Nested : List Layer → Outline → Prop
  /-- The innermost call. -/
  | last {layer : Layer} {call hole : Outline} {value callee : Option Outline}
      {arguments : List Outline}
      (isLayer : IsLayer
        (referent.isReferencedIn tree model) layer call hole value callee arguments)
      (isParam : referent.isAt tree model (refOf value)) : Nested [layer] call
  /-- A call around others. -/
  | cons {layer : Layer} {layers : List Layer} {call hole inner : Outline} {callee : Option Outline}
      {arguments : List Outline}
      (isLayer : IsLayer (referent.isReferencedIn tree model) layer call hole
        (some inner) callee arguments)
      (others : Nested layers inner) : Nested (layer :: layers) call

end

namespace IsLayer

variable {uses : Ref → Bool} {layer : Layer} {call hole : Outline} {value callee : Option Outline}
  {arguments : List Outline}

theorem isChild (isLayer : IsLayer uses layer call hole value callee arguments) :
    hole ∈ call.children := by
  simp [Term.children, isLayer.form, parts, isLayer.held]

theorem innerChild {inner : Outline}
    (isLayer : IsLayer uses layer call hole (some inner) callee arguments) :
    inner ∈ hole.children := by
  simp [Term.children, isLayer.passes, parts]

end IsLayer

/-- What is passed to a call is in one of its arguments. -/
theorem exists_of_mem_passed {tree : Tree} {term : Outline} {callee : Option Outline}
    {arguments : List Outline}
    {range : Range} {passed : Passed} (shown : term.All tree.Shows)
    (form : term.kind = .invoke callee arguments)
    (entries : tree.items range = arguments.map Term.ref)
    (member : passed ∈ tree.passed range) : ∃ argument ∈ arguments, passed.argument = argument.ref ∧
      ∃ value, argument.kind = .argument passed.modifier value ∧ passed.value = refOf value := by
  obtain ⟨ref, isEntry, found⟩ := List.mem_filterMap.1 member
  rw [entries] at isEntry
  obtain ⟨argument, held, rfl⟩ := List.mem_map.1 isEntry
  split at found
  · rename_i modifier value isArgument
    obtain rfl := Option.some.inj found
    have isChild : argument ∈ term.children := by simp [Term.children, form, parts, held]
    have depicts := (shown.child isChild).here.depicts
    rw [isArgument] at depicts
    obtain ⟨value, formArgument, rfl⟩ := depicts.argument
    exact ⟨argument, held, rfl, value, formArgument, rfl⟩
  · cases found

/-- Each argument of a call passes something. -/
theorem mem_passed_of_argument {tree : Tree} {arguments : List Outline}
    {range : Range} {argument : Outline} {modifier : Modifier} {value : Option Outline}
    (shows : tree.Shows argument) (entries : tree.items range = arguments.map Term.ref)
    (held : argument ∈ arguments) (form : argument.kind = .argument modifier value) :
    ⟨argument.ref, modifier, refOf value⟩ ∈ tree.passed range := by
  have depicts := shows.depicts
  rw [form] at depicts
  refine List.mem_filterMap.2 ⟨argument.ref, entries ▸ List.mem_map_of_mem held, ?_⟩
  rw [depicts.of_argument]

/-- The layers of a composition are calls that lie within each other. -/
theorem nested_of_layersWithin {tree : Tree} {model : Model} {referent : Referent} {bound : Nat}
    {child : Option Outline} (shown : ∀ term ∈ child, term.All tree.Shows)
    (found : tree.layersWithin model referent bound (refOf child) = some layers) :
    ∃ call, child = some call ∧ Nested tree model referent layers call := by
  induction bound generalizing child layers with
  | zero => cases found
  | succ bound ih =>
    rw [layersWithin] at found
    split at found
    · rename_i callee range isInvoke
      obtain ⟨call, rfl⟩ := exists_of_kind isInvoke (by simp)
      have shown := shown call rfl
      have depicts := shown.here.depicts
      rw [show tree.kind call.ref = _ from isInvoke] at depicts
      obtain ⟨callee, arguments, form, rfl, entries⟩ := depicts.invoke
      refine ⟨call, rfl, ?_⟩
      have isLayer {hole : Passed} {follows : Bool}
          (isHole : tree.hole? model referent (refOf callee) (tree.passed range)
            = some (hole, follows)) :
          ∃ argument value, hole.value = refOf value ∧ (∀ term ∈ value, term.All tree.Shows) ∧
            (follows = false → referent.isAt tree model (refOf value)) ∧
            IsLayer (referent.isReferencedIn tree model)
            ⟨call.ref, hole.argument⟩ call argument value callee arguments := by
        obtain ⟨member, plain, isParam, unused, others⟩ := hole?_eq_some isHole
        obtain ⟨argument, held, sameArgument, value, formArgument, sameValue⟩ :=
          exists_of_mem_passed shown form entries member
        rw [plain] at formArgument
        rw [sameValue] at isParam
        have isChild {argument : Outline}
            (held : argument ∈ arguments) : argument ∈ call.children := by
          simp [Term.children, form, parts, held]
        refine ⟨argument, value, sameValue, fun term inside => ?_, isParam, rfl, sameArgument, form,
          held, formArgument, unused, fun other heldOther differ modifier passed formOther => ?_⟩
        · obtain rfl := Option.mem_def.1 inside
          exact (shown.child (isChild held)).child (by simp [Term.children, formArgument, parts])
        · exact others _ (mem_passed_of_argument (shown.child (isChild heldOther)).here entries
            heldOther formOther) (sameArgument ▸ differ)
      split at found
      · rename_i hole isHole
        obtain ⟨inner, isInner, rfl⟩ := Option.map_eq_some_iff.1 found
        obtain ⟨argument, value, sameValue, shownValue, -, isLayer⟩ := isLayer isHole
        rw [sameValue] at isInner
        obtain ⟨inner, rfl, nested⟩ := ih shownValue isInner
        exact .cons isLayer nested
      · rename_i hole isHole
        obtain rfl := Option.some.inj found
        obtain ⟨argument, value, -, -, isParam, isLayer⟩ := isLayer isHole
        exact .last isLayer (isParam rfl)
      · cases found
    · cases found

/-- The function that a layer only passes its hole to is what the layer calls. -/
theorem exists_of_passedTo? {tree : Tree} {layer : Layer} {uses : Ref → Bool} {call hole : Outline}
    {value callee : Option Outline} {arguments : List Outline} {named : Ref}
    (isLayer : IsLayer uses layer call hole value callee arguments) (shows : tree.Shows call)
    (found : tree.passedTo? layer = some named) :
    ∃ function, callee = some function ∧ arguments = [hole] ∧ named = function.ref ∧
    tree.isStablePath named := by
  rw [passedTo?, isLayer.isCall] at found
  split at found
  · rename_i called range isInvoke
    have depicts := shows.depicts
    rw [isInvoke] at depicts
    obtain ⟨callee', arguments', form, rfl, entries⟩ := depicts.invoke
    rw [isLayer.form] at form
    cases form
    split at found
    · rename_i isPassed
      obtain rfl := Option.some.inj found
      obtain ⟨single, isPath⟩ := Bool.and_eq_true_iff.1 isPassed
      rw [entries, isLayer.isHole] at single
      obtain ⟨argument, rfl, -⟩ := List.map_eq_singleton_iff.1 (of_decide_eq_true single)
      obtain rfl := List.mem_singleton.1 isLayer.held
      cases callee with
      | none => simp [isStablePath_none] at isPath
      | some function => exact ⟨function, rfl, rfl, rfl, isPath⟩
    · cases found
  · cases found

end Tree

/-- A term with another value in one of the arguments in it. -/
def Term.refill (hole value : Outline) : Outline → Outline :=
    swap hole.ref (.node hole.note (.argument .plain (some value)))

namespace LambdaCall

open Term Refactory.Tree

/-- What is made of a layer: what the call calls, if this is a path and nothing else is passed, or a
lambda over a body. -/
def IsFunctionOf (split : LambdaCall) (start : Tree)
    (param call hole body function : Outline) : Prop :=
  (call.kind = .invoke (some function) [hole] ∧ ∃ root members, IsPath root members function) ∨
    split.IsLambdaOver start param (some body) function

section

variable (split : LambdaCall) (start : Tree) (model : Model) (referent : Referent) (param : Outline)

/-- The functions that are made of layers, the innermost first. In a layer around others the name of
the parameter takes the place of the inner call. -/
inductive Composes : List Layer → Outline → List Outline → Prop
  /-- The innermost layer. -/
  | last {layer : Layer} {call hole function : Outline} {value callee : Option Outline}
      {arguments : List Outline}
      (isLayer : IsLayer
        (referent.isReferencedIn start model) layer call hole value callee arguments)
      (isParam : referent.isAt start model (refOf value))
      (isFunction : split.IsFunctionOf start param call hole call function) :
      Composes [layer] call [function]
  /-- A layer around others. -/
  | snoc {layer : Layer} {layers : List Layer} {call hole inner function : Outline}
      {callee : Option Outline}
      {arguments functions : List Outline} {place : Place}
      (isLayer : IsLayer (referent.isReferencedIn start model) layer call hole
        (some inner) callee arguments)
      (others : Composes layers inner functions) (isNew : ¬start.HasRef place.ref)
      (isFunction : split.IsFunctionOf start param call hole
        (refill hole (.node place (.ident split.lambda.name)) call) function) :
      Composes (layer :: layers) call (functions ++ [function])

end

section

variable {split : LambdaCall} {start : Tree} {model : Model} {referent : Referent} {param : Outline}
  {scope : List Ref} (isParam : split.lambda.param = param.ref)
  (kind : ∃ type, start.kind param.ref = .param type split.lambda.name)
  (standsParam : start.Stands param)

include isParam kind standsParam

/-- The function of the innermost layer is made of its call. -/
theorem layerFunction_reworks_last {tree : Tree} {call hole : Outline}
    {value callee : Option Outline}
    {arguments outputs : List Outline} {layer : Layer} {uses : Ref → Bool} (stored : start.Stored)
    (isLayer : IsLayer uses layer call hole value callee arguments) (standsCall : start.Stands call)
    (apart : call.refs.Disjoint scope) (apartParam : param.refs.Disjoint (call.refs ++ scope))
    (reworks : Reworks scope start tree outputs) :
    ∃ new after, split.layerFunction true layer tree = .ok (Term.ref new, after) ∧
      Reworks (call.refs ++ scope) start after (new :: outputs) ∧
      split.IsFunctionOf start param call hole call new := by
  have disjoint : (List.flatMap refs [call]).Disjoint scope := by simpa using apart
  have added : Reworks (call.refs ++ scope) start tree (call :: outputs) := by
    simpa using reworks.add (StandsAll.singleton_iff.2 standsCall) disjoint
  rw [layerFunction, Change.get_bind]
  cases found : tree.passedTo? layer with
  | some named =>
    obtain ⟨function, rfl, rfl, rfl, isPath⟩ :=
      exists_of_passedTo? isLayer (added.stands.each call (.head _)).shown.here found
    have isChild : function ∈ call.children := by simp [Term.children, isLayer.form, parts]
    have standsFunction := standsCall.subterm (child_mem_subterms isChild)
    have within := refs_subset (child_mem_subterms isChild)
    have taken := reworks.add (StandsAll.singleton_iff.2 standsFunction) (by
      simpa using List.disjoint_of_subset_left within apart)
    refine ⟨function, tree, rfl, taken.mono ?_, .inl ⟨isLayer.form, ?_⟩⟩
    · simpa using List.append_subset.2
        ⟨List.subset_append_of_subset_left _ within, List.subset_append_right _ _⟩
    · exact exists_isPath (taken.stands.each function (.head _)).shown isPath
  | none =>
    obtain ⟨new, after, made, reworks, isLambda⟩ :=
      @lambdaOver_reworks split start tree param _ isParam kind standsParam
      apartParam (some call) outputs stored added
    refine ⟨new, after, ?_, reworks, .inr isLambda⟩
    rw [isLayer.isCall]
    exact congrArg Except.ok made

/-- The function of a layer around others is made of its call, where what was made before meets the
call in the inner call only. -/
theorem layerFunction_reworks {tree : Tree} {call hole inner : Outline} {callee : Option Outline}
    {arguments outputs : List Outline} {layer : Layer} {uses : Ref → Bool} (stored : start.Stored)
    (isLayer : IsLayer uses layer call hole (some inner) callee arguments)
    (standsCall : start.Stands call)
    (within : ∀ ref ∈ call.refs, ref ∈ scope → ref ∈ inner.refs)
    (apartParam : param.refs.Disjoint (call.refs ++ scope))
    (reworks : Reworks scope start tree outputs) :
    ∃ new after place, split.layerFunction false layer tree = .ok (Term.ref new, after) ∧
      Reworks (call.refs ++ scope) start after (new :: outputs) ∧ ¬start.HasRef place.ref ∧
      split.IsFunctionOf start param call hole
      (refill hole (.node place (.ident split.lambda.name)) call) new := by
  have holeWithin := child_mem_subterms isLayer.isChild
  have innerChild := isLayer.innerChild
  have innerHole {ref : Ref} (inside : ref ∈ inner.refs) : ref ∈ hole.innerRefs :=
    mem_innerRefs.2 ⟨inner, innerChild, inside⟩
  have callWithin : call.ref ∉ call.innerRefs := ref_not_mem_innerRefs standsCall.once
  have holeInner : hole.refs ⊆ call.innerRefs :=
    fun ref inside => mem_innerRefs.2 ⟨hole, isLayer.isChild, inside⟩
  have innerSubset : inner.refs ⊆ hole.refs := refs_subset (child_mem_subterms innerChild)
  have shows : tree.Shows call := standsCall.shown.here.of_frame reworks.frame fun inScope =>
    callWithin (holeInner (innerSubset (within _ (ref_mem_refs call) inScope)))
  rw [layerFunction, Change.get_bind]
  cases found : tree.passedTo? layer with
  | some named =>
    obtain ⟨function, rfl, rfl, rfl, isPath⟩ := exists_of_passedTo? isLayer shows found
    have functionChild : function ∈ call.children := by simp [Term.children, isLayer.form, parts]
    have children := standsCall.children.1
    rw [show call.children
      = [function] ++ [hole] by simp [Term.children, isLayer.form, parts]] at children
    obtain ⟨standsFunction, -, apart⟩ := StandsAll.append_iff.1 children
    have inCall := refs_subset (child_mem_subterms functionChild)
    have taken := reworks.add standsFunction fun ref inFunction inScope => by
      have inFunction : ref ∈ function.refs := by simpa using inFunction
      exact apart (by simpa using inFunction)
        (by simpa using innerSubset (within ref (inCall inFunction) inScope))
    refine ⟨function, tree, ⟨none, .nowhere⟩, rfl, taken.mono ?_, fun isStored =>
      ?_, .inl ⟨isLayer.form, ?_⟩⟩
    · simpa using List.append_subset.2
        ⟨List.subset_append_of_subset_left _ inCall, List.subset_append_right _ _⟩
    · obtain ⟨number, -, same⟩ := isStored
      cases same
    · exact exists_isPath (taken.stands.each function (.head _)).shown isPath
  | none =>
    have isArgument : tree.kind hole.ref = .argument .plain inner.ref := by
      have depicts := (standsCall.shows holeWithin).depicts
      rw [isLayer.passes] at depicts
      refine (reworks.kind_eq (standsCall.hasRef (refs_subset holeWithin (ref_mem_refs hole)))
        fun inScope => ?_).trans depicts.of_argument
      exact ref_not_mem_innerRefs (standsCall.subterm holeWithin).once
        (innerHole (within _ (refs_subset holeWithin (ref_mem_refs hole)) inScope))
    obtain ⟨_, _, named, madeValue, builds, place, rfl, rfl⟩ :=
      Build.ident_makes (reworks.frame.stored stored) split.lambda.name
    have isNew : ¬start.HasRef place.ref := fun isStored => by
      simpa
        using builds.origin place.ref (by simp [refs_node, parts]) (isStored.of_frame reworks.frame)
    have nothing : Reworks scope start tree ([] ++ outputs) := reworks
    have reworks := nothing.next builds
    set value : Outline := .node place (.ident split.lambda.name)
    have standsValue := (StandsAll.cons_iff.1 reworks.stands).1
    have holds : named.Holds (.one value.ref) (.one (some value)) :=
      @StandsAll.holds named [value] (some value) (StandsAll.singleton_iff.2 standsValue) (by simp)
    have reworks :
        Reworks scope start named (parts (.argument .plain (some value)) ++ outputs) := by
      simpa [parts] using reworks
    obtain ⟨middle, set, reworks⟩ := @Reworks.setKind call hole scope start named outputs
      (.argument .plain value.ref) _ reworks (reworks.frame.stored stored) standsCall holeWithin
      (fun ref inCall inScope => innerHole (within ref inCall inScope)) ⟨.cons holds .nil, rfl⟩
    obtain ⟨new, after, made, reworks, isLambda⟩ :=
      @lambdaOver_reworks split start middle param _ isParam kind
      standsParam apartParam (some (refill hole value call)) outputs stored reworks
    refine ⟨new, after, place, ?_, reworks, isNew, .inr isLambda⟩
    rw [refOf_some, refill, ref_swap_node, ← isLayer.isCall] at made
    dsimp only
    rw [if_neg Bool.false_ne_true, Change.get_bind, isLayer.isHole, isArgument]
    dsimp only
    rw [Change.lift_bind, madeValue, Change.lift_bind]
    dsimp only
    rw [show Tree.setKind hole.ref (.argument .plain place.ref) named = _ from set]
    exact congrArg Except.ok made

/-- The functions of layers are made one after the other from the innermost on. -/
theorem extends_layerFunctions {call : Outline} (stored : start.Stored)
    (nested : Nested start model referent layers call) (standsCall : start.Stands call)
    (apart : call.refs.Disjoint scope)
    (apartParam : param.refs.Disjoint (call.refs ++ scope)) :
    split.layerFunctions layers ≠ [] ∧
      ∃ forms, Extends start (split.layerFunctions layers) forms scope (call.refs ++ scope) ∧
        ∀ made, List.Forall₂ (fun form function => form function) forms made →
          split.Composes start model referent param layers call made := by
  induction nested with
  | @last layer call hole value callee arguments isLayer isArgument =>
    refine ⟨List.cons_ne_nil _ _, [split.IsFunctionOf start param call hole call],
      .cons (fun tree outputs reworks _ => ?_) .nil, fun made areMade => ?_⟩
    · exact layerFunction_reworks_last isParam kind standsParam stored isLayer standsCall apart
        apartParam reworks
    · obtain ⟨function, others, isFunction, nothing, rfl⟩ := List.forall₂_cons_left_iff.1 areMade
      obtain rfl := List.forall₂_nil_left_iff.1 nothing
      exact .last isLayer isArgument isFunction
  | @cons layer layers call hole inner callee arguments isLayer nested ih =>
    have innerWithin := subterms_child (child_mem_subterms isLayer.isChild) isLayer.innerChild
    have inCall : inner.refs ⊆ call.refs := refs_subset innerWithin
    have narrower : inner.refs ++ scope ⊆ call.refs ++ scope := fun ref member => by
      rw [List.mem_append] at member ⊢
      exact member.imp_left fun inside => inCall inside
    obtain ⟨some, forms, extends', composes⟩ := ih (standsCall.subterm innerWithin)
      (List.disjoint_of_subset_left inCall apart)
      (List.disjoint_of_subset_right narrower apartParam)
    have snoc : split.layerFunctions (layer :: layers)
        = split.layerFunctions layers ++ [split.layerFunction false layer] := by
      obtain ⟨first, others, reversed⟩ : ∃ first others, layers.reverse = first :: others := by
        refine List.exists_cons_of_ne_nil fun empty => ?_
        obtain rfl := List.reverse_eq_nil_iff.1 empty
        cases nested
      rw [layerFunctions, layerFunctions, List.reverse_cons, reversed]
      simp
    rw [snoc]
    let form (new : Outline) : Prop := ∃ place : Place, ¬start.HasRef place.ref ∧
      split.IsFunctionOf start param call hole
        (refill hole (.node place (.ident split.lambda.name)) call) new
    refine ⟨by simp, forms ++ [form], extends'.snoc fun tree outputs reworks _ => ?_,
      fun made areMade => ?_⟩
    · have wider : call.refs ++ (inner.refs ++ scope) ⊆ call.refs ++ scope :=
        List.append_subset.2 ⟨List.subset_append_left _ _, narrower⟩
      obtain ⟨new, after, place, made, reworks, isNew, isFunction⟩ :=
        @layerFunction_reworks split start param (inner.refs ++ scope) isParam kind
        standsParam tree call hole inner callee arguments outputs layer _ stored isLayer standsCall
        (fun ref inCall member => (List.mem_append.1 member).resolve_right (apart inCall))
        (List.disjoint_of_subset_right wider apartParam) reworks
      exact ⟨new, after, made, reworks.mono wider, place, isNew, isFunction⟩
    · have flipped := areMade.flip
      obtain ⟨function, others, ⟨place, isNew, isFunction⟩, nothing, isLast⟩ :=
        List.forall₂_cons_right_iff.1 (List.forall₂_drop_append _ _ _ flipped)
      obtain rfl := List.forall₂_nil_right_iff.1 nothing
      rw [← List.take_append_drop forms.length made, isLast]
      exact .snoc isLayer
        (composes _ (List.forall₂_take_append _ _ _ flipped).flip) isNew isFunction

end

/-- A projection in a program is split into a run of projections, one for each layer of its
composition. -/
theorem Stands.splitLayers {split : LambdaCall} {tree : Tree} {model : Model} {call param : Outline}
    {receiver body : Option Outline} (stands : split.Stands tree call receiver body param)
    (program : tree.IsProgram whole) (within : call ∈ whole.subterms)
    (isLayers : tree.splitLayers? model split = some layers) :
    ∃ (symbol : SymbolId) (inner : Outline) (after : Tree) (anchor run : Outline) (calls
      made : List Outline), model.declaredSymbol split.lambda.param = some symbol ∧
      tree.stripParens (refOf body) = inner.ref ∧
      Finds body.toList tree tree [inner] ∧ 2 ≤ layers.length ∧
      split.splitInto (split.layerFunctions layers) tree = .ok ((), after) ∧
      after.IsProgram (Term.swap call.ref run whole) ∧
      anchor.kind = .member receiver split.called.name split.called.conditional ∧
      IsRun split.called.name anchor (run :: calls) made.reverse ∧
      split.Composes tree model (.symbol symbol) param layers inner made ∧ param.ref ∉ run.refs ∧
      Spares tree after whole call := by
  obtain ⟨standsReceiver, standsRest, apart⟩ := StandsAll.append_iff.1 stands.standing
  obtain ⟨standsBody, standsParam, apartParam⟩ := StandsAll.append_iff.1 standsRest
  obtain ⟨symbol, isSymbol, isLayers⟩ := Option.bind_eq_some_iff.1 isLayers
  obtain ⟨isLayers, several⟩ := Option.filter_eq_some_iff.1 isLayers
  obtain ⟨stripped, strips, finds⟩ := stripParens_finds standsBody
  rw [stands.isBody, strips] at isLayers
  obtain ⟨inner, rfl, nested⟩ := nested_of_layersWithin (fun term inside => by
    exact (finds.stands.each term (by simpa using inside)).shown) isLayers
  have standsInner := StandsAll.singleton_iff.1 finds.stands
  have inBody : inner.refs ⊆ body.toList.flatMap refs := fun ref inside =>
    finds.origin ref (by simpa using inside) (standsInner.hasRef inside)
  have disjoint : param.refs.Disjoint (inner.refs ++ receiver.toList.flatMap refs) :=
    fun ref inParam there => by
    rcases List.mem_append.1 there with inside | inside
    · exact apartParam (inBody inside) (by simpa using inParam)
    · exact apart inside (by simp [inParam])
  obtain ⟨some, forms, extends', composes⟩ := extends_layerFunctions stands.isParam stands.kind
    (StandsAll.singleton_iff.1 standsParam) program.stored nested standsInner
    (fun ref here there => apart there (by simp [inBody here])) disjoint
  obtain ⟨after, anchor, run, calls, made, changed, isProgram, isAnchor, isRun, areMade, spares,
    origin⟩ :=
    stands.splitInto program within extends' some fun ref _ inside => stands.within (by
      simp only [List.flatMap_append, List.mem_append] at inside ⊢
      exact inside.elim (fun inside => .inr (.inl (inBody inside))) .inl)
  have apartRun : param.ref ∉ run.refs := fun inside => disjoint (ref_mem_refs param)
    (origin _ inside ((StandsAll.singleton_iff.1 standsParam).hasRef (ref_mem_refs param)))
  exact ⟨symbol, inner, after, anchor, run, calls, made, isSymbol, strips, finds, of_decide_eq_true
    several, changed, isProgram, isAnchor, isRun, composes made areMade, apartRun, spares⟩

end LambdaCall

namespace Context

open Term Refactory.Tree

/-- Splitting a projection around a node of a program puts a run in the place of a call in the
statement of the node. -/
theorem splitProjection_puts {context : Context} {ref : Ref}
    (program : context.tree.IsProgram whole) (member : ref ∈ whole.refs) :
    Attempt.Gives (context.splitProjection ref) (Offers fun result =>
      ∃ call run, call.ref ∈ context.tree.descendants (context.tree.statementOf ref) ∧
      (∃ access arguments, call.kind = .invoke access arguments) ∧
        context.tree.Places result whole call run) := by
  rw [splitProjection]
  split
  · exact Attempt.refuse_offers _
  · rename_i split layers found
    obtain ⟨other, isCall, isSplit⟩ := List.exists_of_findSome?_eq_some found
    obtain ⟨layers', isLayers, same⟩ := Option.map_eq_some_iff.1 isSplit
    obtain ⟨rfl, rfl⟩ := Prod.mk.inj same
    obtain ⟨call, within, below, receiver, body, param, stands⟩ :=
      stands_of_mem_lambdaCalls program member isCall
    obtain ⟨_, _, after, _, run, _, _, -, -, -, -, changed, isProgram, -, -, -, -, spares⟩ :=
      stands.splitLayers program within isLayers
    obtain ⟨access, argument, _, form, -⟩ := stands.formed
    exact offer_offers ⟨after, changed, call, run, below, ⟨_, _, form⟩, within, isProgram, spares⟩

/-- Splitting a projection around a node of a program gives a program where it is offered. -/
theorem splitProjection_gives {context : Context} {ref : Ref}
    (program : context.tree.IsProgram whole) (member : ref ∈ whole.refs) :
    Attempt.Gives (context.splitProjection ref) OffersProgram := by
  refine (splitProjection_puts program member).mono fun offered offers action isOffered => ?_
  obtain ⟨_, _, -, -, puts⟩ := offers action isOffered
  exact ⟨_, puts.program⟩

end Context

end Refactory
