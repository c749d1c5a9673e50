import Refactory.Proofs.Refactoring.MirrorMatch
import Refactory.Proofs.Refactoring.Preservation

/-!
# Refactoring mirrored trees

A refactoring that is looked for at a node of a program and at the corresponding node of an image is
offered in both or in neither, with one title and one log, and the results are a tree and an image
of it (`OffersAlike`, `Attempt.Tracks`). This holds of the refactorings that merge and split calls.
-/
namespace Refactory

open Refactory.Tree

/-- The same names are available in two scopes. -/
structure NameScope.Alike (scope scope' : NameScope) : Prop where
  /-- The same names are taken. -/
  taken : scope'.taken = scope.taken
  /-- The same names are bound. -/
  bound : ∀ name, scope'.model.lookupAt scope'.position name
    = scope.model.lookupAt scope.position name

namespace NameScope.Alike

variable {scope scope' : NameScope} (alike : scope.Alike scope')

include alike

theorem isFree (name : String) : scope'.isFree name = scope.isFree name := by
  rw [NameScope.isFree, NameScope.isFree, alike.taken, alike.bound]

theorem firstFree (preferred : List String) (ladder : NameLadder) :
    scope'.firstFree preferred ladder = scope.firstFree preferred ladder := by
  have same : scope'.isFree = scope.isFree := funext alike.isFree
  rw [NameScope.firstFree, NameScope.firstFree, same]

theorem reserve (name : String) : (scope.reserve name).Alike (scope'.reserve name) :=
  ⟨congrArg (List.cons name) alike.taken, alike.bound⟩

/-- The same name is picked, and the same names are left. -/
theorem pick (preferred : List String) (ladder : NameLadder) :
    (scope'.pick preferred ladder).1 = (scope.pick preferred ladder).1 ∧
      (scope.pick preferred ladder).2.Alike (scope'.pick preferred ladder).2 := by
  simp only [NameScope.pick, alike.firstFree]
  exact ⟨trivial, alike.reserve _⟩

theorem pickMany (ladder : NameLadder)
    (count : Nat) : scope'.pickMany ladder count = scope.pickMany ladder count := by
  induction count generalizing scope scope' with
  | zero => rfl
  | succ count ih =>
    obtain ⟨same, others⟩ := alike.pick [] ladder
    rw [NameScope.pickMany, NameScope.pickMany]
    simp only [same, ih others]

end NameScope.Alike

/-- Where an attempt comes to something, another one comes to something with the same log, and the
two are as said. -/
def Attempt.Tracks {α β : Type} (attempt : Attempt α) (attempt' : Attempt β)
    (post : α → β → Prop) : Prop :=
  ∀ log result log', attempt log = (.ok result, log') →
    ∃ result', attempt' log = (.ok result', log') ∧ post result result'

namespace Attempt.Tracks

variable {α β γ δ : Type} {attempt : Attempt α} {attempt' : Attempt β} {post : α → β → Prop}

theorem pure {value : α} {value' : β} (posted : post value value') :
    Attempt.Tracks (Pure.pure value) (Pure.pure value') post := by
  rintro log _ _ ⟨⟩
  exact ⟨value', rfl, posted⟩

theorem bind {next : α → Attempt γ} {next' : β → Attempt δ} {post' : γ → δ → Prop}
    (first : Attempt.Tracks attempt attempt' post) (others : ∀ value value', post value value' →
      Attempt.Tracks (next value) (next' value') post') :
    Attempt.Tracks (attempt >>= next) (attempt' >>= next') post' := by
  intro log result log' come
  change ExceptT.bindCont next (attempt log).1 (attempt log).2 = _ at come
  cases came : attempt log with
  | mk outcome middle =>
    rw [came] at come
    cases outcome with
    | error => cases come
    | ok value =>
      obtain ⟨value', came', posted⟩ := first log value middle came
      obtain ⟨result', come', posted'⟩ := others value value' posted middle result log' come
      refine ⟨result', ?_, posted'⟩
      change ExceptT.bindCont next' (attempt' log).1 (attempt' log).2 = _
      rw [came']
      exact come'

theorem mono {post' : α → β → Prop} (tracks : Attempt.Tracks attempt attempt' post)
    (weaken : ∀ value value', post value value' → post' value value') :
    Attempt.Tracks attempt attempt' post' := by
  intro log result log' come
  obtain ⟨result', come', posted⟩ := tracks log result log' come
  exact ⟨result', come', weaken _ _ posted⟩

/-- An attempt that comes to the same whatever tree it looks at. -/
theorem same (attempt : Attempt α) : Attempt.Tracks attempt attempt Eq :=
  fun _ result _ come => ⟨result, come, rfl⟩

theorem pickName {scope scope' : NameScope} (alike : scope.Alike scope') (preferred : List String)
    (ladder : NameLadder) :
    Attempt.Tracks (Attempt.pickName scope preferred ladder)
    (Attempt.pickName scope' preferred ladder)
      fun picked picked' => picked'.1 = picked.1 ∧ picked.2.Alike picked'.2 := by
  obtain ⟨same, others⟩ := alike.pick preferred ladder
  rintro log _ _ ⟨⟩
  refine ⟨scope'.pick preferred ladder, ?_, same, others⟩
  change (Except.ok (scope'.pick preferred ladder),
    log.push (.namePicked (scope'.pick preferred ladder).1)) = _
  rw [same]

end Attempt.Tracks

/-- An action corresponds to one for an image of the tree, with an image of its result. -/
structure Action.Twins (move : Nat → Nat) (action action' : Action) : Prop where
  /-- Both are the same refactoring. -/
  refactoring : action'.refactoring = action.refactoring
  /-- Both have the same title. -/
  title : action'.title = action.title
  /-- The one result is an image of the other. -/
  result : action.result.Mirrors move action'.result

/-- What is looked at corresponds. -/
structure Context.Mirrors (move : Nat → Nat) (context image : Context) : Prop where
  /-- The one tree is an image of the other. -/
  tree : context.tree.Mirrors move image.tree
  /-- Names mean the same in both. -/
  model : context.model.Mirrors move image.model
  /-- The settings are the same. -/
  settings : image.settings = context.settings

namespace Context

variable {move : Nat → Nat} {context image : Context}

/-- Two attempts offer corresponding actions, or none. -/
abbrev OffersAlike (move : Nat → Nat) (attempt attempt' : Attempt (Option Action)) : Prop :=
  Attempt.Tracks attempt attempt' (Option.Rel (Action.Twins move))

theorem none_alike : OffersAlike move (pure none) (pure none) := .pure .none

theorem refuse_alike
    (refusal : Refusal) : OffersAlike move (Attempt.refuse refusal) (Attempt.refuse refusal) :=
  (Attempt.Tracks.same _).bind fun _ _ _ => none_alike

theorem offer_alike (refactoring : Refactoring) (title : String) {start startImage : Tree}
    {change change' : Change Unit}
    (mirrors : start.Mirrors move startImage)
    (tracks : Change.Tracks move change change' start startImage fun _ _ _ _ => True) :
    OffersAlike move (context.offer refactoring title start change)
      (image.offer refactoring title startImage change') := by
  intro log result log' come
  rw [offer, StateT.run] at come ⊢
  cases ran : change start with
  | error cause =>
    rw [ran] at come
    cases come
  | ok done =>
    obtain ⟨⟨⟩, afterImage, ran', mirrors', -⟩ := tracks mirrors done.1 done.2 ran
    rw [ran] at come
    obtain ⟨rfl, rfl⟩ : some ⟨refactoring, title, context.tree.version, done.2⟩ = result ∧
        log.push (.offered refactoring title) = log' := by
      cases come
      exact ⟨rfl, rfl⟩
    rw [ran']
    exact ⟨_, rfl, .some ⟨rfl, rfl, mirrors'⟩⟩

namespace Mirrors

variable (mirrors : context.Mirrors move image)

include mirrors

theorem namesAt {position : Ref} (grounded : context.tree.Grounded position) :
    (context.namesAt position).Alike (image.namesAt (position.map move)) :=
  ⟨mirrors.tree.namesIn grounded, fun name => mirrors.model.lookupAt position name⟩

end Mirrors

end Context

/-! ### Merging -/

/-- Calls are merged alike in a tree and in an image of it. -/
structure Merging.Alike (merging : Merging) : Prop where
  /-- The same functions can be merged. -/
  accepts : ∀ {move : Nat → Nat} {model imageModel : Model}, model.Mirrors move imageModel →
    CallRun.AcceptAlike move (merging.accepts model) (merging.accepts imageModel)
  /-- The merged bodies correspond. -/
  combine : ∀ {move : Nat → Nat} {model imageModel : Model}, model.Mirrors move imageModel →
    ∀ (name : String) {tree image : Tree} {first first' : Abstraction}
    {others others' : List Abstraction},
      FunctionTwins move tree first first' → List.Forall₂ (FunctionTwins move tree) others others' →
        Edit.Tracks move (merging.combine model name first others)
          (merging.combine imageModel name first' others') tree image (Twins move True)

theorem Merging.filters_alike : filters.Alike :=
  ⟨fun _ _ _ _ _ _ _ _ => rfl, fun models name => Abstraction.conjoin_tracks models name⟩

theorem Merging.projections_alike : projections.Alike := by
  refine ⟨fun models tree image function function' place mirrors twins => ?_,
    fun models name => Abstraction.compose_tracks models name⟩
  obtain ⟨rfl, grounded⟩ := twins
  exact mirrors.isComposable models place grounded

namespace CallRun

variable {move : Nat → Nat} {tree image : Tree} {run run' : CallRun}

theorem Twins.functions (twins : run.Twins move tree run') :
    run'.functions = run.functions.map (Abstraction.renumber move) ∧
      ∀ function ∈ run.functions, tree.Grounded function.body := by
  have all : List.Forall₂ (FunctionTwins move tree) run.functions run'.functions :=
    .cons twins.first twins.others
  generalize run.functions = functions, run'.functions = functions' at all
  induction all with
  | nil => exact ⟨rfl, nofun⟩
  | cons here _ ih =>
    exact ⟨by rw [here.1, ih.1, List.map_cons], List.forall_mem_cons.2 ⟨here.2, ih.2⟩⟩

/-- Merging corresponding runs. -/
theorem merge_tracks {merging : Merging} (alike : merging.Alike) {model imageModel : Model}
    (models : model.Mirrors move imageModel) (name : String) (twins : run.Twins move tree run') :
    Change.Tracks move (run.merge merging model name)
    (run'.merge merging imageModel name) tree image fun _ _ _ _ => True := by
  refine .given fun mirrors => .get_bind ?_
  rw [twins.outer, twins.anchor, mirrors.parent]
  refine (Change.Tracks.lift (alike.combine models name twins.first twins.others) fun _ _ _ _ _ =>
    And.left).bind
    fun _ _ body _ isBody => ?_
  refine (Change.Tracks.lift (Build.param_tracks name) fun _ _ _ _ _ => And.left).bind
    fun _ _ param _ isParam => ?_
  subst isBody isParam
  refine (Change.Tracks.lift (Build.lambda_tracks param body false) fun _ _ _ _ _ => And.left).bind
    fun _ _ lambda _ isLambda => ?_
  subst isLambda
  refine (Change.Tracks.lift (Build.invoke_tracks run.anchor [lambda]) fun _ _ _ _ _ =>
    And.left).bind
    fun _ _ merged _ isMerged => ?_
  subst isMerged
  exact Change.put_tracks _ _ merged

end CallRun

namespace Context.Mirrors

variable {move : Nat → Nat} {context image : Context} (mirrors : context.Mirrors move image)
  {whole : Outline} (program : context.tree.IsProgram whole) {ref : Ref} (member : ref ∈ whole.refs)

include mirrors

theorem mergedParameter {scratch scratchImage : Tree} {run run' : CallRun}
    (scratches : scratch.Mirrors move scratchImage)
    (twins : run.Twins move scratch run') (grounded : context.tree.Grounded run.outer) :
    Attempt.Tracks (context.mergedParameter scratch run)
    (image.mergedParameter scratchImage run') Eq := by
  obtain ⟨functions, bodies⟩ := twins.functions
  have kept (name : String) :
      (run'.functions.all fun function => !function.captures scratchImage image.model name)
      = run.functions.all fun function => !function.captures scratch context.model name := by
    rw [functions, List.all_map, Bool.eq_iff_iff, List.all_eq_true, List.all_eq_true]
    refine forall₂_congr fun function inside => ?_
    rw [Function.comp_apply, scratches.captures mirrors.model name (bodies function inside)]
  have isWritten :
      (fun function : Abstraction => !function.referent.isSynthesized) ∘ Abstraction.renumber move
      = fun function => !function.referent.isSynthesized := by
    funext function
    simp only [Function.comp_apply, Abstraction.renumber]
    cases function.referent <;> rfl
  have written :
      (run'.functions.find? fun function => !function.referent.isSynthesized).map (·.param)
      = (run.functions.find? fun function => !function.referent.isSynthesized).map (·.param) := by
    rw [functions, List.find?_map, isWritten, Option.map_map]
    rfl
  rw [Context.mergedParameter, Context.mergedParameter]
  simp only [kept, written, twins.outer, mirrors.settings]
  split
  · exact .pure rfl
  · exact (Attempt.Tracks.pickName (mirrors.namesAt grounded) _ _).bind fun _ _ same =>
      .pure same.1.symm

include program member

/-- Merging around corresponding nodes is offered for both or for none. -/
theorem merge {merging : Merging} (alike : merging.Alike) :
    OffersAlike move (context.merge merging ref) (image.merge merging (ref.map move)) := by
  have isStatement := program.statementOf_mem member
  obtain ⟨grow, rejected, twins⟩ :=
    @CallRun.search_tracks move context.tree image.tree context.model image.model
    mirrors.model context.settings.placeholder merging.method _ _ (alike.accepts mirrors.model)
    whole program _
    isStatement mirrors.tree
  obtain ⟨search, scratch, searched, -, found⟩ :=
    @CallRun.search_stands context.model context.settings.placeholder
    merging.method (merging.accepts context.model) _ _ _ program isStatement
  rw [searched] at grow rejected twins
  rw [Context.merge, Context.merge, mirrors.tree.statementOf (program.tops fun _ => member),
    mirrors.settings, StateT.run, StateT.run, searched]
  cases searched' : CallRun.search image.model context.settings.placeholder merging.method
      ((context.tree.statementOf ref).map move) (merging.accepts image.model) image.tree with
  | mk search' scratchImage =>
  rw [searched'] at grow rejected twins
  simp only at grow rejected twins ⊢
  rw [rejected]
  refine (Attempt.Tracks.same _).bind fun _ _ _ => ?_
  cases isFound : search.found with
  | none =>
    rw [isFound] at twins
    cases isFound' : search'.found with
    | some _ => rw [isFound'] at twins; cases twins
    | none => exact refuse_alike _
  | some run =>
    rw [isFound] at twins
    cases isFound' : search'.found with
    | none => rw [isFound'] at twins; cases twins
    | some run' =>
      rw [isFound'] at twins
      cases twins with | some twins => ?_
      obtain ⟨outer, anchor, bodies, stands, -⟩ := found run isFound
      have isOuter : run.outer ∈ whole.refs :=
        Term.mem_refs.2 ⟨outer, stands.within, stands.isOuter⟩
      refine (mirrors.mergedParameter grow.mirrors twins (program.grounded fun _ => isOuter)).bind
        fun name _ same => ?_
      subst same
      rw [twins.functions.1, List.length_map]
      exact offer_alike _ _ grow.mirrors (CallRun.merge_tracks alike mirrors.model name twins)

end Context.Mirrors

/-! ### Splitting -/

namespace LambdaCall

variable {move : Nat → Nat} {tree image : Tree}

/-- Calling the method with corresponding functions, one after the other. -/
theorem callEach_tracks (method : String) {functions functions' : List (Change Ref)}
    (each : List.Forall₂ (fun function function' => ∀ middle middleImage, tree.Carries middle →
      Change.Tracks move function function' middle middleImage fun after _ made made' =>
        made' = made.map move ∧ middle.Carries after) functions functions') (receiver : Ref)
    (conditional : Bool) {current currentImage : Tree} (carries : tree.Carries current) :
    Change.Tracks move (callEach method receiver conditional functions)
      (callEach method (receiver.map move) conditional functions') current currentImage
      fun _ _ run run' => run' = run.map move := by
  induction functions generalizing functions' receiver conditional current currentImage with
  | nil =>
    obtain rfl := List.forall₂_nil_left_iff.1 each
    exact .pure rfl
  | cons function functions ih =>
    obtain ⟨function', functions', here, others, rfl⟩ := List.forall₂_cons_left_iff.1 each
    rw [callEach, callEach]
    refine (here current currentImage carries).bind ?_
    rintro _ _ made _ ⟨rfl, carries'⟩
    refine (Change.Tracks.lift (Build.member_tracks receiver method conditional)
      fun _ _ _ _ grow found => And.intro found.1 grow.carries).bind ?_
    rintro _ _ access _ ⟨rfl, carries''⟩
    refine (Change.Tracks.lift (Build.invoke_tracks access [made]) fun _ _ _ _ grow found =>
      And.intro found.1 grow.carries).bind ?_
    rintro _ _ call _ ⟨rfl, carries'''⟩
    exact ih others call false (((carries.trans carries').trans carries'').trans carries''')

/-- Splitting corresponding calls. -/
theorem splitInto_tracks (split : LambdaCall) {functions functions' : List (Change Ref)}
    (each : List.Forall₂ (fun function function' => ∀ middle middleImage, tree.Carries middle →
      Change.Tracks move function function' middle middleImage fun after _ made made' =>
        made' = made.map move ∧ middle.Carries after) functions functions') :
    Change.Tracks move (split.splitInto functions)
    ((split.renumber move).splitInto functions') tree image fun _ _ _ _ => True := by
  refine .given fun mirrors => .get_bind ?_
  rw [show image.parent (split.renumber move).call = _ from mirrors.parent split.call]
  refine (callEach_tracks split.called.name each split.called.receiver split.called.conditional
    (.refl tree)).bind
    fun _ _ run _ isRun => ?_
  subst isRun
  exact Change.put_tracks _ _ run

/-- A lambda like that of corresponding calls. -/
theorem lambdaOver_tracks (split : LambdaCall) (body : Ref)
    (grounded : tree.Grounded split.lambda.param) :
    Edit.Tracks move (split.lambdaOver body)
    ((split.renumber move).lambdaOver (body.map move)) tree image
      fun _ _ made made' => made' = made.map move := by
  refine (Build.copyOfParam_tracks grounded).bind fun _ _ param _ _ ⟨isParam, _⟩ => ?_
  subst isParam
  exact (Build.lambda_tracks param body split.lambda.parenthesized).mono
    fun _ _ _ _ _ found => found.1

/-- The functions of corresponding layers. -/
theorem layerFunction_tracks (split : LambdaCall) (innermost : Bool) {layer : Layer}
    (groundedParam : tree.Grounded split.lambda.param) (groundedCall : tree.Grounded layer.call) :
    Change.Tracks move (split.layerFunction innermost layer)
      ((split.renumber move).layerFunction innermost (layer.renumber move)) tree image
      fun after _ made made' => made' = made.map move ∧ tree.Carries after := by
  refine .given fun mirrors => .get_bind ?_
  rw [mirrors.passedTo? groundedCall]
  cases tree.passedTo? layer with
  | some named => exact .pure ⟨rfl, .refl tree⟩
  | none =>
    have wrapped {middle middleImage : Tree} (carries : tree.Carries middle) :
        Change.Tracks move (liftM (split.lambdaOver layer.call))
          (liftM ((split.renumber move).lambdaOver (layer.renumber move).call)) middle middleImage
          fun after _ made made' => made' = made.map move ∧ tree.Carries after :=
      .lift (lambdaOver_tracks split layer.call (carries _ groundedParam)) fun _ _ _ _ grow found =>
        ⟨found, carries.trans grow.carries⟩
    cases innermost with
    | true => exact wrapped (.refl tree)
    | false =>
      refine .get_bind ?_
      obtain ⟨g, same, -⟩ := mirrors.exists_kind layer.hole
      rw [show image.kind (layer.renumber move).hole = _ from same]
      cases isArgument : tree.kind layer.hole with
      | argument modifier value =>
        have named : Edit.Tracks move (Build.ident split.lambda.name)
            (Build.ident split.lambda.name) tree image
            fun after afterImage name name' => Twins move True after afterImage name name' ∧
              (name, after) = Build.ident split.lambda.name tree := (Build.ident_tracks _).also
          (fun after name => (name, after) = Build.ident split.lambda.name tree) rfl
        refine (Change.Tracks.lift named fun _ _ _ _ _ found => And.intro found.1.1 found.2).bind
          fun named namedImage name _ ⟨isName, came⟩ => ?_
        subst isName
        have filled : Change.Tracks move (liftM (Tree.setKind layer.hole (.argument modifier name)))
            (liftM (Tree.setKind (layer.hole.map move) (.argument modifier (name.map move)))) named
            namedImage
            fun after _ _ _ => tree.Carries after := by
          have kinds : MirrorsKind move named namedImage (.argument modifier name)
            (.argument modifier (name.map move)) :=
            ⟨.cons rfl .nil, rfl⟩
          refine .edits fun mirrors' => ⟨mirrors'.setKind kinds layer.hole, ?_⟩
          have carries := mirrors.carries_fill isArgument split.lambda.name
          rwa [← came] at carries
        exact filled.bind fun _ _ _ _ carries => wrapped carries
      | _ => exact Change.throw_tracks _ _

/-- The functions of all layers. -/
theorem layerFunctions_track (split : LambdaCall) {layers : List Layer}
    (groundedParam : tree.Grounded split.lambda.param)
    (groundedCalls : ∀ layer ∈ layers, tree.Grounded layer.call) :
    List.Forall₂ (fun function function' => ∀ middle middleImage, tree.Carries middle →
      Change.Tracks move function function' middle middleImage fun after _ made made' =>
        made' = made.map move ∧ middle.Carries after) (split.layerFunctions layers)
      ((split.renumber move).layerFunctions (layers.map (Layer.renumber move))) := by
  have each (innermost : Bool) (layer : Layer) (inside : layer ∈ layers.reverse)
      (middle middleImage : Tree)
      (carries : tree.Carries middle) : Change.Tracks move (split.layerFunction innermost layer)
        ((split.renumber move).layerFunction innermost (layer.renumber move)) middle middleImage
        fun after _ made made' => made' = made.map move ∧ middle.Carries after :=
    layerFunction_tracks split innermost (carries _ groundedParam)
      (carries _ (groundedCalls layer (List.mem_reverse.1 inside)))
  rw [layerFunctions, layerFunctions, ← List.map_reverse]
  generalize layers.reverse = reversed at each ⊢
  cases reversed with
  | nil => exact .nil
  | cons first others =>
    refine .cons (each true first (.head _)) ?_
    rw [List.map_map, List.forall₂_map_left_iff, List.forall₂_map_right_iff, List.forall₂_same]
    exact fun layer inside => each false layer (.tail _ inside)

/-- The parts of a call with a lambda are below the call. -/
theorem grounded_of_lambdaCall? {call : Ref} {split : LambdaCall} (grounded : tree.Grounded call)
    (found : tree.lambdaCall? call = some split) :
    tree.Grounded split.lambda.param ∧ tree.Grounded split.lambda.body := by
  simp only [lambdaCall?, Option.bind_eq_bind, Option.bind_eq_some_iff, Option.pure_def,
    Option.some.injEq] at found
  obtain ⟨value, isPassed, lambda, isLambda, _, -, rfl⟩ := found
  exact (grounded.singleArgument isPassed).simpleLambda isLambda

end LambdaCall

/-- The layers of a composition are below it. -/
theorem Tree.Grounded.layers {tree : Tree} {model : Model} {referent : Referent} {body : Ref}
    {layers : List Layer}
    (grounded : tree.Grounded body) (found : tree.layers? model referent body = some layers) :
    ∀ layer ∈ layers, tree.Grounded layer.call := by
  have within (bound : Nat) {ref : Ref} {layers : List Layer} (grounded : tree.Grounded ref)
      (found : tree.layersWithin model referent bound ref = some layers) :
      ∀ layer ∈ layers, tree.Grounded layer.call := by
    induction bound generalizing ref layers with
    | zero => cases found
    | succ bound ih =>
      rw [layersWithin] at found
      split at found
      · rename_i callee arguments kind
        split at found
        · rename_i hole chosen
          have passed := mem_passed (hole?_eq_some chosen).1
          have below :=
            (grounded.item (by rw [kind]; exact .tail _ (.head _)) passed.1).one passed.2
          obtain ⟨others, isOthers, rfl⟩ := Option.map_eq_some_iff.1 found
          exact List.forall_mem_cons.2 ⟨grounded, ih below isOthers⟩
        · obtain rfl := Option.some.inj found
          simpa using grounded
        · cases found
      · cases found
  exact within _ grounded.stripParens (Option.filter_eq_some_iff.1 found).1

namespace Context.Mirrors

variable {move : Nat → Nat} {context image : Context} (mirrors : context.Mirrors move image)
  {whole : Outline} (program : context.tree.IsProgram whole) {ref : Ref} (member : ref ∈ whole.refs)

include mirrors program member

theorem lambdaCalls (method : String) :
    image.lambdaCalls method (ref.map move) =
    (context.lambdaCalls method ref).map (LambdaCall.renumber move) ∧
      ∀ split ∈ context.lambdaCalls method ref,
        context.tree.Grounded split.lambda.param ∧ context.tree.Grounded split.lambda.body := by
  have grounded := program.grounded fun _ => program.statementOf_mem member
  simp only [Context.lambdaCalls, mirrors.tree.statementOf (program.tops fun _ => member),
    mirrors.tree.callsOf method grounded]
  refine ⟨filterMap_map_of fun call _ => mirrors.tree.lambdaCall? call, fun split isSplit => ?_⟩
  obtain ⟨call, isCall, found⟩ := List.mem_filterMap.1 isSplit
  exact LambdaCall.grounded_of_lambdaCall?
    (grounded.descendant (List.mem_of_mem_filter isCall)) found

omit program member in
theorem offerSplit (refactoring : Refactoring) (split : LambdaCall)
    {functions functions' : List (Change Ref)} (each : List.Forall₂
      (fun function function' => ∀ middle middleImage, context.tree.Carries middle →
      Change.Tracks move function function' middle middleImage fun after _ made made' =>
        made' = made.map move ∧ middle.Carries after) functions functions') :
    OffersAlike move (context.offerSplit refactoring split functions)
      (image.offerSplit refactoring (split.renumber move) functions') := by
  rw [Context.offerSplit, Context.offerSplit, each.length_eq]
  exact offer_alike _ _ mirrors.tree (LambdaCall.splitInto_tracks split each)

/-- Splitting filters around corresponding nodes is offered for both or for none. -/
theorem splitFilter :
    OffersAlike move (context.splitFilter ref) (image.splitFilter (ref.map move)) := by
  obtain ⟨calls, grounded⟩ := mirrors.lambdaCalls program member "Where"
  have found : (image.lambdaCalls "Where" (ref.map move)).findSome? (fun split =>
        (split, ·) <$> image.tree.splitOperands? split)
      = ((context.lambdaCalls "Where" ref).findSome? fun split =>
        (split, ·) <$> context.tree.splitOperands? split).map
          (Prod.map (LambdaCall.renumber move) (List.map (Option.map move))) := by
    rw [calls]
    refine findSome?_map_of fun split inside => ?_
    rw [mirrors.tree.splitOperands? (grounded split inside).2]
    cases context.tree.splitOperands? split <;> rfl
  rw [Context.splitFilter, Context.splitFilter, found]
  cases isFound : (context.lambdaCalls "Where" ref).findSome? fun split =>
      (split, ·) <$> context.tree.splitOperands? split with
  | none => exact refuse_alike _
  | some found =>
    obtain ⟨split, operands⟩ := found
    obtain ⟨other, inside, same⟩ := List.exists_of_findSome?_eq_some isFound
    obtain ⟨_, -, same⟩ := Option.map_eq_some_iff.1 same
    obtain ⟨rfl, rfl⟩ := Prod.mk.inj same
    refine mirrors.offerSplit _ other ?_
    rw [List.map_map, List.forall₂_map_left_iff, List.forall₂_map_right_iff, List.forall₂_same]
    refine fun operand _ middle middleImage carries =>
      .lift (LambdaCall.lambdaOver_tracks other operand ?_) ?_
    · exact carries _ (grounded other inside).1
    · exact fun _ _ _ _ grow found => ⟨found, grow.carries⟩

/-- Splitting projections around corresponding nodes is offered for both or for none. -/
theorem splitProjection :
    OffersAlike move (context.splitProjection ref) (image.splitProjection (ref.map move)) := by
  obtain ⟨calls, grounded⟩ := mirrors.lambdaCalls program member "Select"
  have found : (image.lambdaCalls "Select" (ref.map move)).findSome? (fun split =>
        (split, ·) <$> image.tree.splitLayers? image.model split)
      = ((context.lambdaCalls "Select" ref).findSome? fun split =>
        (split, ·) <$> context.tree.splitLayers? context.model split).map
          (Prod.map (LambdaCall.renumber move) (List.map (Layer.renumber move))) := by
    rw [calls]
    refine findSome?_map_of fun split inside => ?_
    rw [mirrors.tree.splitLayers? mirrors.model (grounded split inside).2]
    cases context.tree.splitLayers? context.model split <;> rfl
  rw [Context.splitProjection, Context.splitProjection, found]
  cases isFound : (context.lambdaCalls "Select" ref).findSome? fun split =>
      (split, ·) <$> context.tree.splitLayers? context.model split with
  | none => exact refuse_alike _
  | some found =>
    obtain ⟨split, layers⟩ := found
    obtain ⟨other, inside, same⟩ := List.exists_of_findSome?_eq_some isFound
    obtain ⟨_, isSplit, same⟩ := Option.map_eq_some_iff.1 same
    obtain ⟨rfl, rfl⟩ := Prod.mk.inj same
    obtain ⟨symbol, -, isLayers⟩ := Option.bind_eq_some_iff.1 isSplit
    obtain ⟨groundedParam, groundedBody⟩ := grounded other inside
    exact mirrors.offerSplit _ other (LambdaCall.layerFunctions_track other groundedParam
      (groundedBody.layers isLayers))

end Context.Mirrors

end Refactory
