import Refactory.Proofs.Refactoring.Recomposing

/-!
# Splitting and merging projections

The functions of a split projection can be merged again, and their composition is the body of the
lambda (`Context.mergeSelect_of_splitSelect`), but for the name of the parameter and the parentheses
around it and around the body. The parameter has no type afterwards, so that a lambda with a type at
its parameter does not come back (`Context.mergeSelect_of_splitSelect_drops_type`).
-/
namespace Refactory

open Term Refactory.Tree

/-- What was moved out of the body of a lambda calls a method only where the body does. -/
theorem Tree.Moves.callsMethod_eq_false {tree : Tree} {name method : String}
    {param body function part : Outline} {type : Option Outline}
    (moves : tree.Moves name param body function) (inPlaceParam : param.All InPlace)
    (isParam : param.kind = .param type name) (once : body.refs.Nodup)
    (quiet : ∀ part ∈ body.subterms, part.callsMethod method = false)
    (inside : part ∈ function.subterms) :
    part.callsMethod method = false := by
  cases moves with
  | @called call callee arguments exposed form _ =>
    have held : function ∈ call.children := by simp [Term.children, form, parts]
    exact quiet part (subterms_trans exposed.mem_subterms (mem_subterms_of_child held inside))
  | alone exposed isLambda =>
    exact isLambda.callsMethod_eq_false (inPlace_shape_param inPlaceParam isParam)
      (fun term held part below =>
      quiet part (subterms_trans (exposed term held).1.mem_subterms below)) inside
  | @refilled call hole inner function place callee arguments exposed form held passes _ isLambda =>
    refine isLambda.callsMethod_eq_false (inPlace_shape_param inPlaceParam isParam)
      (fun term isBody part below => ?_) inside
    obtain rfl := Option.some.inj isBody
    have onceCall := once.sublist (refs_sublist exposed.mem_subterms)
    have heldHole : hole ∈ call.children := by simp [Term.children, form, parts, held]
    rcases exists_of_mem_subterms_swap onceCall (child_mem_subterms heldHole) below
      with inHole | ⟨other, inCall, outside, rfl⟩
    · have cases : part = .node hole.note (.argument .plain (some (.node place (.ident name)))) ∨
          part = .node place (.ident name) := by simpa [subterms_node, parts] using inHole
      rcases cases with rfl | rfl <;> rfl
    · have unique {part : Outline} (inside : part ∈ other.subterms)
          (same : part.ref = hole.ref) : part = hole :=
        subterm_unique onceCall (subterms_trans inCall inside) (child_mem_subterms heldHole) same
      have above : other.ref ≠ hole.ref := fun same =>
        outside (unique (self_mem_subterms other) same ▸ self_mem_subterms other)
      refine Eq.trans ?_ (quiet other (subterms_trans exposed.mem_subterms inCall))
      rcases other with ⟨here, kind⟩
      refine callsMethod_swap (by rw [passes]; rfl) above fun child isChild same => ?_
      exact unique (child_mem_subterms isChild) same

/-- Functions that compute are composed by one after the other. -/
theorem Shape.compositionOver_map {fills : List (Shape → Shape)} (several : fills ≠ [])
    (name : String) :
    Shape.compositionOver name (fills.map fun fill passed => some (fill passed))
      = some (fills.foldl (fun passed fill => fill passed) (.node () (.ident name))) := by
  obtain ⟨first, others, rfl⟩ := List.exists_cons_of_ne_nil several
  rw [List.map_cons, Shape.compositionOver, List.foldl_cons]
  generalize first (.node () (.ident name)) = composed
  clear several
  induction others generalizing composed with
  | nil => rfl
  | cons fill fills ih =>
    rw [List.map_cons, List.foldl_cons, List.foldl_cons, Option.bind_some]
    exact ih (fill composed)

/-- Where a part gives its place to its own shape but for something inside, the whole does. -/
theorem Term.shape_swap_eq_shapePutting {whole part new : Outline} {test : Ref → Bool}
    {put : Outline → Shape} (once : whole.refs.Nodup) (within : part ∈ whole.subterms)
    (hits : ∀ ref, test ref = true → ref ∈ part.innerRefs)
    (same : new.shape = part.shapePutting test put) :
    (swap part.ref new whole).shape = whole.shapePutting test put := by
  refine @around_induction whole part
    (fun whole => (swap part.ref new whole).shape = whole.shapePutting test put) once within
    (by rwa [swap_self]) (fun other apart => ?_) fun place form outside ih => ?_
  · rw [swap_of_not_mem (apart (ref_mem_refs part)), shapePutting_eq_shape fun inner inside =>
      Bool.eq_false_iff.2 fun hit => ?_]
    exact apart (innerRefs_subset_refs part (hits _ hit)) (refs_subset inside (ref_mem_refs inner))
  · have above : place.ref ≠ part.ref := fun here => outside (here ▸ ref_mem_refs part)
    have miss : ¬test place.ref = true :=
      fun hit => outside (innerRefs_subset_refs part (hits _ hit))
    rw [swap_node, if_neg above, shape_node, mapForm_eq, mapChildren_mapChildren, shapePutting_node,
      if_neg miss]
    exact congrArg (node ()) (mapChildren_congr ih)

/-- A tree in which a lambda is written anew: its parameter has a type or none and a name that is
used for nothing else in the body, and there are no parentheses around the parameter and around the
whole body. -/
def Tree.RespellsLambda (tree result : Tree) (place : Ref) (lambda : SimpleLambda)
    (type : Option Shape)
    (name : String) : Prop :=
  ∃ symbol, (Model.build tree).declaredSymbol lambda.param = some symbol ∧
    (name = lambda.name ∨ name ∉ tree.namesIn (tree.stripParens lambda.body)) ∧
    result.shape = (tree.outline tree.root).shapePutting (· == place) fun _ => .node () (.lambda
      [.node () (.param type name)] (some ((tree.outline (tree.stripParens lambda.body)).shapeNaming
        ((Referent.symbol symbol).isAt tree (Model.build tree)) name)) false)

namespace Context

variable {tree : Tree} {settings : Settings} {whole container call : Outline}

/-- Where a projection is the only call of its kind in a statement, splitting at the statement
splits this one, if it is offered. -/
theorem splitProjection_of_only (unit : tree.IsUnit whole) (within : container ∈ whole.subterms)
    (isStatement : container.kind.isStatement)
    (only : container.subterms.filter (callsMethod "Select") = [call]) :
    Attempt.Gives ((ofTree tree settings).splitProjection container.ref) fun offered =>
    ∀ action, offered = some action → ∃ split layers, tree.lambdaCall? call.ref = some split ∧
      tree.splitLayers? (Model.build tree) split = some layers ∧
        split.splitInto (split.layerFunctions layers) tree = .ok ((), action.result) ∧ action.title
          = "Split into " ++ toString layers.length ++ " " ++ split.called.name ++ " calls" := by
  have isStatementRef : (tree.kind container.ref).isStatement :=
    (Kind.isStatement_of_skeleton (unit.stands.shows within).depicts.skeleton).trans isStatement
  rw [splitProjection]
  split
  · exact (Attempt.note_gives _).bind fun _ _ => .pure fun _ isSome =>
      absurd isSome.symm (Option.some_ne_none _)
  · rename_i split layers found
    obtain ⟨other, isCall, isSplit⟩ := List.exists_of_findSome?_eq_some found
    obtain ⟨layers', isLayers, same⟩ := Option.map_eq_some_iff.1 isSplit
    obtain ⟨rfl, rfl⟩ := Prod.mk.inj same
    rw [lambdaCalls, show (ofTree tree settings).tree = tree from rfl, statementOf_of_isStatement
      isStatementRef, (unit.stands.subterm within).callsOf, only] at isCall
    have isLambdaCall : tree.lambdaCall? call.ref = some other := by
      obtain ⟨ref, isRef, found⟩ := List.mem_filterMap.1 isCall
      rwa [List.mem_singleton.1 isRef] at found
    have inside : call ∈ container.subterms :=
      List.mem_of_mem_filter (p := callsMethod "Select") (by rw [only]; exact .head _)
    have inWhole := subterms_trans within inside
    obtain ⟨receiver, body, param, stands⟩ :=
      LambdaCall.stands_of_lambdaCall? (unit.stands.subterm inWhole) isLambdaCall
    obtain ⟨_, _, after, _, _, _, _, -, -, -, -, changed, -⟩ :=
      stands.splitLayers unit.toIsProgram inWhole isLayers
    refine (offer_of_eq changed).mono fun offered isOffered action isAction => ?_
    obtain rfl := Option.some.inj (isAction.symm.trans isOffered)
    refine ⟨other, layers', isLambdaCall, isLayers, changed, ?_⟩
    rw [LambdaCall.length_layerFunctions]

/-- Where the only projection of a statement gave its place to a run over the layers of its
composition, merging at the statement puts a projection over the composition in the place of it. -/
theorem merge_of_splitProjection {after : Tree} {split : LambdaCall} {receiver : Option Outline}
    {body param inner run anchor : Outline} {symbol : SymbolId} {layers : List Layer}
    {calls made : List Outline} (unit : tree.IsUnit whole) (within : container ∈ whole.subterms)
    (isStatement : container.kind.isStatement)
    (only : container.subterms.filter (callsMethod "Select") = [call])
    (stands : split.Stands tree call receiver (some body) param)
    (isSelect : split.called.name = "Select")
    (declares : (Model.build tree).declaredSymbol param.ref = some symbol)
    (isBare : bareOf (some body) = some inner)
    (program : after.IsProgram (Term.swap call.ref run whole))
    (isAnchor : anchor.kind = .member receiver split.called.name split.called.conditional)
    (isRun : IsRun split.called.name anchor (run :: calls) made.reverse)
    (composes : split.Composes tree (Model.build tree) (.symbol symbol) param layers inner made)
    (several : 2 ≤ layers.length)
    (apart : param.ref ∉ run.refs)
    (free : ∀ outer ∈ (after.callsOf "Select" container.ref).head?,
      ∃ candidate ∈ settings.lambdaParameter.candidates NameScope.searchLimit,
        ((ofTree after settings).namesAt outer).isFree candidate = true) :
    Attempt.Gives ((ofTree after settings).merge .projections container.ref) fun offered =>
    ∃ action, offered = some action ∧
      ∃ merged name, action.title = "Merge " ++ toString layers.length ++ " Select calls" ∧
      action.result.IsProgram (Term.swap call.ref merged whole) ∧
      (name = split.lambda.name ∨ name ∉ tree.namesIn inner.ref) ∧
      merged.shape = Shape.mergedCall anchor.shape name (some
          (inner.shapeNaming ((Referent.symbol symbol).isAt tree (Model.build tree)) name)) := by
  obtain ⟨access, argument, lambda, form, formAccess, formArgument, _, formLambda⟩ := stands.formed
  rw [isSelect] at isAnchor isRun formAccess
  have inside : call ∈ container.subterms :=
    List.mem_of_mem_filter (p := callsMethod "Select") (by rw [only]; exact .head _)
  have inWhole := subterms_trans within inside
  obtain ⟨type, isParam⟩ := stands.exists_param
  obtain ⟨bodyInCall, paramInCall⟩ := stands.inside
  have inPlaceParam := unit.inPlace.subterm (subterms_trans inWhole paramInCall)
  have onceBody := (unit.stands.subterm (subterms_trans inWhole bodyInCall)).once
  have inPlaceBody := unit.inPlace.subterm (subterms_trans inWhole bodyInCall)
  obtain ⟨_, ⟨⟩, exposed⟩ := exposed_of_bareOf isBare
  have innerWhole := subterms_trans inWhole (subterms_trans bodyInCall exposed.mem_subterms)
  -- The functions are moved out of the body and call nothing of the kind.
  have moves (function : Outline)
      (member : function ∈ made) : tree.Moves split.lambda.name param body function :=
    composes.moves unit declares (subterms_trans inWhole bodyInCall) exposed member
  have quietBody : ∀ part ∈ body.subterms, part.callsMethod "Select" = false := fun part below => by
    have heldArgument : argument ∈ call.children := by simp [Term.children, form, parts]
    have heldLambda : lambda ∈ argument.children := by simp [Term.children, formArgument, parts]
    have heldBody : body ∈ lambda.children := by simp [Term.children, formLambda, parts]
    exact callsMethod_of_only (unit.stands.subterm within).once only heldArgument
      (mem_subterms_of_child heldLambda (mem_subterms_of_child heldBody below))
  obtain ⟨unitAfter, within', isStatement', same, all, noReceiver⟩ :=
    unit.swap_only within isStatement only form formAccess
    program isAnchor isRun
    (fun function member => (moves function (List.mem_reverse.1 member)).isExpression onceBody
    inPlaceBody inPlaceParam isParam)
    fun function member part below =>
      (moves function (List.mem_reverse.1 member)).callsMethod_eq_false inPlaceParam isParam
      onceBody quietBody below
  have runInside := @mem_subterms_swap run _ _ unit.stands.once inWhole
  have isOutermost : run.ref ∈ (after.callsOf "Select" container.ref).head? := by
    rw [← same, (program.stands.subterm within').callsOf, all]
    rfl
  -- So they compute what the layers are.
  have rebinds :=
    stands.rebinds unit inWhole program (isSelect ▸ isAnchor) (isSelect ▸ isRun) declares
    isBare composes apart
  obtain ⟨fills, apply, composed⟩ :=
    composes.appliesAs rebinds isParam (List.Subset.refl made) innerWhole
  have computes : List.Forall₂ (Abstraction.Computes after (Model.build after) settings.placeholder
      split.lambda.name) made fills := by
    refine ((List.forall₂_and_left _ _).2 ⟨fun _ member => member, apply⟩).imp
      fun function fill both => ?_
    exact both.2.computes program.stored (rebinds.standing.each function both.1)
  have passes :
      List.Forall₂ after.PassesAt ((run :: calls).reverse.map Term.ref) (made.map some) := by
    have passes := List.rel_reverse isRun.passes
    rw [List.reverse_reverse] at passes
    rw [List.forall₂_map_left_iff, List.forall₂_map_right_iff]
    have inRun (other : Outline) (member : other ∈ (run :: calls).reverse) : after.Stands other :=
      program.stands.subterm
        (subterms_trans runInside (isRun.inside rfl (List.mem_reverse.1 member)))
    refine (List.forall₂_iff_get.1 passes).elim fun length each =>
      List.forall₂_iff_get.2 ⟨length, fun i here there => ?_⟩
    obtain ⟨callee, place, argument, isCall⟩ := each i here there
    exact ⟨_, rfl, inRun _ (List.get_mem _ _), callee,
      .node argument (.argument .plain (some _)), by rw [isCall]; rfl, rfl⟩
  obtain ⟨functions, middle, denote, frame, areFilled, areNamed⟩ :=
    @CallRun.functionsOf?_of_computes after after
      (Model.build after) settings.placeholder split.lambda.name 0 _ made fills program.stored
      (.refl after) computes passes rebinds.standing
  obtain ⟨_, _, denoted, -, isFound⟩ :=
    @CallRun.functionsOf?_finds (Model.build after) settings.placeholder
      (Merging.projections.accepts (Model.build after)) 0 _ (made.map some) after passes
    program.stored
    (by simpa [List.flatMap_map] using rebinds.standing)
  obtain ⟨rfl, rfl⟩ := Prod.mk.inj (denote.symm.trans denoted)
  obtain ⟨⟨bodies, haveBodies, finds, -⟩, accepted⟩ := isFound functions rfl
  have lengths : functions.length = layers.length := by
    have length := congrArg List.length areFilled
    rw [List.length_map, List.length_map] at length
    rw [length, ← computes.length_eq, composes.length_eq]
  obtain ⟨first, others, rfl⟩ := List.exists_cons_of_length_pos (show 0 < functions.length by omega)
  have lengthRun := isRun.length_eq
  rw [List.length_reverse, ← composes.length_eq, List.length_cons] at lengthRun
  obtain ⟨second, calls, rfl⟩ := List.exists_cons_of_length_pos (show 0 < calls.length by omega)
  obtain ⟨name, isName, isNew⟩ :=
    @mergedParameter_cases (ofTree after settings) middle ⟨run.ref, anchor.ref, first, others⟩
    split.lambda.name areNamed (free run.ref isOutermost)
  have merges := @merge_of_isRun
    (ofTree after settings) .projections Merging.projections_combines _ _ _ _ _ _ _ _ _ _ _ _ _
    program within' isStatement' isAnchor noReceiver isRun all denote isName
  rw [same] at merges
  refine merges.mono fun offered gives => ?_
  obtain ⟨action, merged, isOffered, isTitle, isProgram, isMerged⟩ := gives
  refine ⟨action, isOffered, merged, name, ?_, ?_, ?_, ?_⟩
  · rw [isTitle, ← lengths, String.append_assoc, String.append_assoc]
    rfl
  · rw [← swap_swap_self unit.stands.once inWhole unitAfter.stands.once]
    exact isProgram
  · rcases isNew with kept | isFree
    · exact .inl kept
    by_cases among : name ∈ tree.namesIn inner.ref
    · -- A name in the composition other than that of the parameter is in the run, where the new
      -- name is free.
      obtain ⟨part, below, named⟩ := (unit.stands.subterm innerWhole).exists_of_mem_namesIn among
      have shows := unit.stands.shows (subterms_trans inWhole paramInCall)
      refine (composes.exists_of_name unit declares
        (by rw [shows.declaredName?, isParam]; rfl) innerWhole below named).imp_right ?_
      rintro ⟨function, member, inFunction⟩
      have inRun :=
        subterms_trans ((isRun.parts_inside rfl).2 function (List.mem_reverse.2 member)) inFunction
      obtain ⟨notUsed, notDeclared⟩ := (program.stands.subterm runInside).unnamed_of_namesIn
        (not_mem_namesIn_of_isFree isFree) inRun
      exact (named.elim notUsed notDeclared).elim
    · exact .inr among
  · rw [isMerged.shape Merging.projections_joins
      (frame.stored program.stored) haveBodies accepted finds.stands, areFilled,
      Shape.compositionOver_map (fun none => by simp [none] at areFilled), composed]

/-- Merging restores what splitting has taken apart: where a statement has one projection and
splitting is offered at the statement, merging is offered there in the result with as many calls,
and the tree has the shape of the first one in the end, in which the lambda is written anew. Some
name must be free where a name is wanted for the parameter. -/
theorem mergeSelect_of_splitSelect {tree : Tree} {settings : Settings} {statement call : Ref}
    {split : Action}
    (wellFormed : tree.WellFormed) (sorted : tree.IsSorted) (attached : statement ∈ tree.attached)
    (isStatement : (tree.kind statement).isStatement)
    (only : tree.callsOf "Select" statement = [call])
    (offered : (ofTree tree settings).offered? .splitSelect statement = .ok (some split))
    (free : ∀ outer ∈ (split.result.callsOf "Select" statement).head?,
      ∃ candidate ∈ settings.lambdaParameter.candidates NameScope.searchLimit,
        ((ofTree split.result settings).namesAt outer).isFree candidate = true) :
    ∃ projection lambda layers merge name, tree.lambdaCall? call = some projection ∧
    tree.singleArgument? call = some lambda ∧
      tree.splitLayers? (Model.build tree) projection = some layers ∧
      split.title = "Split into " ++ toString layers.length ++ " Select calls" ∧
      (ofTree split.result settings).offered? .mergeSelect statement = .ok (some merge) ∧
      merge.title = "Merge " ++ toString layers.length ++ " Select calls" ∧
      tree.RespellsLambda merge.result lambda projection.lambda none name := by
  obtain ⟨whole, unit⟩ := sorted.exists_isUnit wellFormed
  rw [unit.attached] at attached
  obtain ⟨container, within, rfl⟩ := mem_refs.1 attached
  have standsContainer := unit.stands.subterm within
  rw [Kind.isStatement_of_skeleton (unit.stands.shows within).depicts.skeleton] at isStatement
  rw [standsContainer.callsOf] at only
  obtain ⟨call, isOnly, rfl⟩ := List.map_eq_singleton_iff.1 only
  have isCall : call ∈ container.subterms ∧ call.callsMethod "Select" = true :=
    List.mem_filter.1 (isOnly ▸ .head _)
  have inWhole := subterms_trans within isCall.1
  have standsCall := unit.stands.subterm inWhole
  -- What splitting has come to.
  have gives : Attempt.Gives ((ofTree tree settings).attempt .splitSelect container.ref) _ :=
    splitProjection_of_only unit within isStatement isOnly
  obtain ⟨projection, layers, isProjection, isLayers, changed, isTitle⟩ :=
    gives.yields #[] (some split) ((ofTree tree settings).attempt .splitSelect container.ref #[]).2
      (Prod.ext offered rfl) split rfl
  obtain ⟨receiver, body, param, stands⟩ := LambdaCall.stands_of_lambdaCall? standsCall isProjection
  obtain ⟨symbol, inner, after, anchor, run, calls, made, declares, strips,
    finds, several, changed', program, isAnchor, isRun, composes, apart, -⟩ :=
    stands.splitLayers unit.toIsProgram inWhole isLayers
  obtain rfl : after = split.result := (Prod.mk.inj (Except.ok.inj (changed'.symm.trans changed))).2
  obtain ⟨access, argument, lambda, form, formAccess, formArgument, parenthesized, formLambda⟩ :=
    stands.formed
  have isSelect : projection.called.name = "Select" := by
    have calls := isCall.2
    simp only [callsMethod, form, formAccess, Bool.and_eq_true] at calls
    exact beq_iff_eq.1 calls.1
  have isBare : bareOf body = some inner := bareOf_eq_of_stripParens
    ((StandsAll.append_iff.1 (StandsAll.append_iff.1 stands.standing).2.1).1) (fun term held => by
      obtain rfl := Option.some.inj held
      exact (finds.stands.each inner (.head _)).shown) strips
  obtain ⟨body, rfl, -⟩ := exposed_of_bareOf isBare
  rw [stands.isParam] at declares
  have merges :
      Attempt.Gives ((ofTree split.result settings).attempt .mergeSelect container.ref) _ :=
    merge_of_splitProjection unit within isStatement isOnly stands isSelect declares isBare program
    isAnchor isRun composes several apart free
  obtain ⟨merge, isMerge, merged, name, isTitle', isMerged, isNew, isShape⟩ :=
    offered?_of_gives merges
  have isInner : tree.stripParens projection.lambda.body = inner.ref := stands.isBody ▸ strips
  have standsInner : tree.Stands inner := finds.stands.each inner (.head _)
  refine ⟨projection, lambda.ref, layers, merge, name, isProjection,
    singleArgument?_of_passes standsCall.shown ⟨_, _, form, formArgument⟩, isLayers, ?_, isMerge,
    isTitle', symbol, stands.isParam ▸ declares, isInner ▸ isNew, ?_⟩
  · rw [isTitle, isSelect, String.append_assoc, String.append_assoc]
    rfl
  · have heldArgument : argument ∈ call.children := by simp [Term.children, form, parts]
    have heldLambda : lambda ∈ argument.children := by simp [Term.children, formArgument, parts]
    have inCall : lambda ∈ call.subterms :=
      mem_subterms_of_child heldArgument (child_mem_subterms heldLambda)
    rw [Tree.shape, isMerged.outline_root, unit.outline_root, isInner, standsInner.outline]
    refine shape_swap_eq_shapePutting unit.stands.once inWhole (fun ref here => ?_) ?_
    · rw [beq_iff_eq.1 here]
      exact mem_innerRefs.2
        ⟨argument, heldArgument, mem_refs.2 ⟨lambda, child_mem_subterms heldLambda, rfl⟩⟩
    · rw [isShape, shapePutting_eq_passing standsCall.once form (.head _) formArgument
        fun part below here => by
        rw [subterm_unique standsCall.once below inCall (beq_iff_eq.1 here)]
        exact self_mem_subterms lambda, passing_of_single standsCall.once form]
      rcases lambda with ⟨place, kind⟩
      rcases access with ⟨there, kindAccess⟩
      rcases anchor with ⟨here, kindAnchor⟩
      obtain rfl : kindAccess = _ := formAccess
      obtain rfl : kindAnchor = _ := isAnchor
      rw [shapePutting_node, if_pos (by simp)]
      rfl

/-- A composition in parentheses, of a named function, one that is passed a lambda over the same
name besides, and another named one, comes back over a parameter of another name. -/
theorem mergeSelect_of_splitSelect_of_nested : ∃ tree split projection lambda layers merge name,
    Tree.parse 0 "q.Select((x) => (h(g(f(x), x => x))));" = .ok tree ∧
      (ofTree tree {}).offered? .splitSelect (some 21) = .ok (some split) ∧
      tree.lambdaCall? (some 20) = some projection ∧ tree.singleArgument? (some 20) = some lambda ∧
      tree.splitLayers? (Model.build tree) projection = some layers ∧
      split.title = "Split into " ++ toString layers.length ++ " Select calls" ∧
      (ofTree split.result {}).offered? .mergeSelect (some 21) = .ok (some merge) ∧
      merge.title = "Merge " ++ toString layers.length ++ " Select calls" ∧
      tree.RespellsLambda merge.result lambda projection.lambda none name := by
  let candidate (place : Nat) : String := ({} : Settings).lambdaParameter.candidate place
  have facts : (Tree.parse 0 "q.Select((x) => (h(g(f(x), x => x))));").toOption.any (fun tree =>
      some 21 ∈ tree.attached && (tree.kind (some 21)).isStatement &&
        tree.callsOf "Select" (some 21) = [some 20] &&
        ((ofTree tree {}).offered? .splitSelect (some 21)).toOption.any fun split =>
        split.any fun split => (split.result.callsOf "Select" (some 21)).head?.all fun outer =>
            ((ofTree split.result {}).namesAt outer).isFree (candidate 1)) = true := by
    decide +kernel
  obtain ⟨tree, parsed, facts⟩ := exists_of_any facts
  simp only [Bool.and_eq_true, decide_eq_true_eq] at facts
  obtain ⟨⟨⟨attached, isStatement⟩, only⟩, isSplit⟩ := facts
  obtain ⟨split, isOffered, isSplit⟩ := (Option.any_eq_true _ _).1 isSplit
  obtain ⟨split, rfl, free⟩ := (Option.any_eq_true _ _).1 isSplit
  have offered := eq_ok_of_toOption isOffered
  have among : candidate 1 ∈ ({} : Settings).lambdaParameter.candidates NameScope.searchLimit :=
    List.mem_map.2 ⟨1, List.mem_range.2 (by decide), rfl⟩
  obtain ⟨projection, lambda, layers, merge, name, found⟩ :=
    @mergeSelect_of_splitSelect tree {} _ _ split
      (wellFormed_of_parse parsed) (isSorted_of_parse parsed) attached isStatement only offered
    fun outer isOuter => ⟨candidate 1, among, by rw [Option.mem_def.1 isOuter] at free; exact free⟩
  exact ⟨tree, split, projection, lambda, layers, merge, name, parsed, offered, found⟩

/-- The statement `q.Select((int x) => g(f(x)));` as a term. A text gives the parameter of a lambda
no type. -/
def typedProjection : SourceTerm :=
  let ident (name : String) : SourceTerm := .node .nowhere (.ident name)
  let call (callee value : SourceTerm) : SourceTerm :=
    .node .nowhere (.invoke (some callee) [.node .nowhere (.argument .plain (some value))])
  let param : SourceTerm :=
    .node .nowhere (.param (some (.node .nowhere (.typeRef "int" [] 0))) "x")
  let body : SourceTerm := call (ident "g") (call (ident "f") (ident "x"))
  let lambda : SourceTerm := .node .nowhere (.lambda [param] (some body) true)
  let access : SourceTerm := .node .nowhere (.member (some (ident "q")) "Select" false)
  .node .nowhere (.unit [.node .nowhere (.exprStmt (some (call access lambda)))])

/-- Its children are of the right sorts. -/
theorem typedProjection_inPlace : typedProjection.All InPlace := by
  refine all_iff_subterms.2 fun part inside => ⟨?_⟩
  revert part
  decide +kernel

/-- The type of a parameter does not come back: in the tree of such a statement splitting and
merging are offered, and whatever name the parameter is given, the lambda is not written anew with
the type. -/
theorem mergeSelect_of_splitSelect_drops_type :
    ∃ tree statement call projection lambda type split merge, tree.WellFormed ∧ tree.IsSorted ∧
    statement ∈ tree.attached ∧ (tree.kind statement).isStatement ∧
      tree.callsOf "Select" statement = [call] ∧ tree.lambdaCall? call = some projection ∧
      tree.singleArgument? call = some lambda ∧ (tree.outline projection.lambda.param).shape
        = .node () (.param (some type) projection.lambda.name) ∧
      (ofTree tree {}).offered? .splitSelect statement = .ok (some split) ∧
      (∀ outer ∈ (split.result.callsOf "Select" statement).head?,
        ∃ candidate ∈ ({} : Settings).lambdaParameter.candidates NameScope.searchLimit,
          ((ofTree split.result {}).namesAt outer).isFree candidate = true) ∧
      (ofTree split.result {}).offered? .mergeSelect statement = .ok (some merge) ∧
      ∀ name, ¬tree.RespellsLambda merge.result lambda projection.lambda (some type) name := by
  have facts : (some (ofTerm 0 typedProjection)).any (fun tree =>
      some 14 ∈ tree.attached && some 11 ∈ tree.attached && (tree.kind (some 14)).isStatement &&
        tree.callsOf "Select" (some 14) = [some 13] && tree.singleArgument? (some 13)
        = some (some 11) && (tree.lambdaCall? (some 13)).any fun projection =>
          projection.lambda.param = some 3 && projection.lambda.name = "x") = true := by
    decide +kernel
  let candidate : String := ({} : Settings).lambdaParameter.candidate 1
  have among : candidate ∈ ({} : Settings).lambdaParameter.candidates NameScope.searchLimit :=
    List.mem_map.2 ⟨1, List.mem_range.2 (by decide), rfl⟩
  -- A name is free, and no type is left in the result.
  have offers : (some (ofTerm 0 typedProjection)).any (fun tree =>
      ((ofTree tree {}).offered? .splitSelect (some 14)).toOption.any fun split =>
        split.any fun split => ((split.result.callsOf "Select" (some 14)).head?.all fun outer =>
            ((ofTree split.result {}).namesAt outer).isFree candidate) &&
          ((ofTree split.result {}).offered? .mergeSelect (some 14)).toOption.any fun merge =>
            merge.any fun merge => merge.result.shape.subterms.all fun part =>
            part.kind.sort != .type)
      = true := by
    decide +kernel
  have isParam : ((ofTerm 0 typedProjection).outline (some 3)).shape
      = .node () (.param (some (.node () (.typeRef "int" [] 0))) "x") := by
    cbv
  obtain ⟨wellFormed, sorted⟩ := wellFormed_and_isSorted_ofTerm 0 rfl typedProjection_inPlace
  rw [Option.any_some] at facts offers
  generalize ofTerm 0 typedProjection = tree at *
  simp only [Bool.and_eq_true, decide_eq_true_eq] at facts
  obtain ⟨⟨⟨⟨⟨attached, attachedLambda⟩, isStatement⟩, only⟩, passed⟩, isCall⟩ := facts
  obtain ⟨projection, isProjection, isCall⟩ := (Option.any_eq_true _ _).1 isCall
  simp only [Bool.and_eq_true, decide_eq_true_eq] at isCall
  obtain ⟨split, isSplit, splits⟩ := (Option.any_eq_true _ _).1 offers
  obtain ⟨split, rfl, both⟩ := (Option.any_eq_true _ _).1 splits
  obtain ⟨free, merges⟩ := Bool.and_eq_true_iff.1 both
  obtain ⟨merge, isMerge, merged⟩ := (Option.any_eq_true _ _).1 merges
  obtain ⟨merge, rfl, typeless⟩ := (Option.any_eq_true _ _).1 merged
  refine ⟨tree, some 14, some 13, projection, some 11, .node () (.typeRef "int" [] 0), split, merge,
    wellFormed, sorted, attached, isStatement, only, isProjection, passed, ?_, eq_ok_of_toOption
    isSplit, fun outer isOuter => ⟨candidate, among, ?_⟩, eq_ok_of_toOption isMerge, ?_⟩
  · rw [isCall.1, isCall.2, isParam]
  · rwa [Option.mem_def.1 isOuter] at free
  · rintro name ⟨symbol, -, -, same⟩
    obtain ⟨whole, unit⟩ := sorted.exists_isUnit wellFormed
    rw [unit.attached] at attachedLambda
    obtain ⟨lambda, within, isLambda⟩ := mem_refs.1 attachedLambda
    -- The type would be in the lambda that is written anew.
    have typed : (.node () (.typeRef "int" [] 0) : Shape) ∈ merge.result.shape.subterms := by
      rw [same, unit.outline_root]
      refine subterms_trans (mem_subterms_shapePutting within ?_ fun other inside hit => ?_) ?_
      · exact beq_iff_eq.2 isLambda
      · exact subterm_unique unit.stands.once inside within ((beq_iff_eq.1 hit).trans isLambda.symm)
      · simp [subterms_node, parts]
    have noType := List.all_eq_true.1 typeless _ typed
    cases noType

end Context

end Refactory
