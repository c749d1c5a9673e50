import Refactory.Catalogue
import Refactory.Proofs.Code.Versions
import Refactory.Proofs.Refactoring.Attempt

/-!
# Refactorings take new versions

Whatever is offered for a tree whose lists lie in its list store has such a tree for its result, of
a version that was taken after the offer was asked for, and it is good for the version that it was
asked for (`Context.offered_renews`). This holds of every node of every tree, well formed or not,
and whatever the names are taken to mean.
-/
namespace Refactory

open Refactory.Tree

/-- A change of a tree whose lists lie in the list store leads to such a tree where it comes to
something, and its result is as said. -/
abbrev Change.Leads {α : Type} (change : Change α) :=
    Change.Keeps Tree.ListsStored Tree.LeadsTo change

/-- A change leads from any tree whose lists lie in the list store to another one. -/
def Change.Advances {α : Type} (change : Change α) : Prop :=
    ∀ tree, Change.Leads change tree fun _ _ => True

/-- A change takes a new version of any tree whose lists lie in the list store. -/
def Change.Renews {α : Type} (change : Change α) : Prop :=
  ∀ tree : Tree, Change.Leads change tree fun _ after => tree.Renews after

namespace Change

variable {α β : Type} {tree : Tree}

namespace Advances

theorem pure (value : α) : Change.Advances (Pure.pure value) := fun _ => .pure trivial

theorem bind {change : Change α} {next : α → Change β} (first : change.Advances)
    (others : ∀ value, (next value).Advances) : Change.Advances (change >>= next) :=
  fun tree => (first tree).bind fun value after _ _ => others value after

theorem lift {edit : Edit α} (advances : edit.Advances) : Change.Advances (liftM edit) :=
  fun tree => .lift (advances tree)

theorem get_bind {next : Tree → Change β} (advances : ∀ tree, (next tree).Advances) :
    Change.Advances (MonadState.get >>= next) := fun tree => .get_bind (advances tree tree)

/-- A change takes a new version if the last part of it does. -/
theorem bind_renews {change : Change α} {next : α → Change β} (first : change.Advances)
    (others : ∀ value, (next value).Renews) : Change.Renews (change >>= next) :=
  fun tree => (first tree).bind fun value after leads _ =>
    (others value after).mono fun _ _ _ renews =>
    leads.renews renews

end Advances

namespace Renews

theorem advances {change : Change α} (renews : change.Renews) : change.Advances :=
  fun tree => (renews tree).mono fun _ _ _ _ => trivial

/-- A change takes a new version if the first part of it does. -/
theorem bind {change : Change α} {next : α → Change β} (first : change.Renews)
    (others : ∀ value, (next value).Advances) : Change.Renews (change >>= next) :=
  fun tree => (first tree).bind fun value after leads renews =>
    (others value after).mono fun _ _ leads' _ =>
    leads'.keeps_renews renews leads.clock

theorem get_bind {next : Tree → Change β} (renews : ∀ tree, (next tree).Renews) :
    Change.Renews (MonadState.get >>= next) := fun tree => .get_bind (renews tree tree)

end Renews

theorem throw_renews (error : RefactoringError) : Change.Renews (throw error : Change α) := by
  rintro tree - _ _ ⟨⟩

theorem require_advances (found : Option α)
    (cause : Violation) : (require found cause).Advances := by
  cases found with
  | none => rintro tree - _ _ ⟨⟩
  | some value => exact .pure value

/-- An edit that takes a new version where it finds its place does so where it is demanded to. -/
theorem demand_renews {edit : Edit Bool} (cause : Violation)
    (renews : ∀ tree, Edit.Leads edit tree fun found after => found = true → tree.Renews after) :
    Change.Renews (do demand (← edit) cause) := by
  refine fun tree => (Keeps.lift (renews tree)).bind fun found after leads renews => ?_
  cases found with
  | false => rintro - _ _ ⟨⟩
  | true => exact .pure (renews rfl)

/-- Putting a node in the place of another takes a new version. -/
theorem put_renews (parent target replacement : Ref) : (put parent target replacement).Renews := by
  cases parent with
  | none => exact fun tree => .lift (setRoot_leads replacement)
  | some number => exact demand_renews _ fun tree => replaceChild_leads _ target replacement

theorem putBefore_renews (statement : Ref)
    (before : List Ref) : (putBefore statement before).Renews := by
  refine .get_bind fun tree => ?_
  simp only
  split
  · exact demand_renews _ fun tree => spliceChild_leads _ statement _
  · exact (Advances.lift (Build.block_advances _)).bind_renews fun block =>
      put_renews _ statement block

end Change

/-- The merged function of a run is built with new versions. -/
def Merging.Advances (merging : Merging) : Prop :=
  ∀ model name first others, (merging.combine model name first others).Advances

theorem Merging.filters_advances : filters.Advances := Abstraction.conjoin_advances

theorem Merging.projections_advances : projections.Advances := Abstraction.compose_advances

theorem CallRun.merge_renews (run : CallRun) {merging : Merging} (combines : merging.Advances)
    (model : Model)
    (name : String) : (run.merge merging model name).Renews := by
  refine .get_bind fun tree => ?_
  refine (Change.Advances.lift (combines model name _ _)).bind_renews fun body => ?_
  refine (Change.Advances.lift (Build.param_advances name)).bind_renews fun param => ?_
  refine (Change.Advances.lift (Build.lambda_advances param body false)).bind_renews
    fun lambda => ?_
  refine (Change.Advances.lift (Build.invoke_advances run.anchor [lambda])).bind_renews
    fun merged => ?_
  exact Change.put_renews _ run.outer merged

namespace LambdaCall

theorem callEach_advances {functions : List (Change Ref)} (method : String) (receiver : Ref)
    (conditional : Bool)
    (advances : ∀ function ∈ functions, Change.Advances function) :
    (callEach method receiver conditional functions).Advances := by
  induction functions generalizing receiver conditional with
  | nil => exact .pure _
  | cons function functions ih =>
    refine (advances function (.head _)).bind fun function => ?_
    refine (Change.Advances.lift (Build.member_advances receiver method conditional)).bind
      fun access => ?_
    refine (Change.Advances.lift (Build.invoke_advances access [function])).bind fun call => ?_
    exact ih call false fun other member => advances other (.tail _ member)

theorem splitInto_renews (split : LambdaCall) {functions : List (Change Ref)}
    (advances : ∀ function ∈ functions, Change.Advances function) :
    (split.splitInto functions).Renews :=
  .get_bind fun _ => (callEach_advances _ _ _ advances).bind_renews fun run =>
    Change.put_renews _ split.call run

theorem lambdaOver_advances (split : LambdaCall) (body : Ref) : (split.lambdaOver body).Advances :=
  (Build.copyOfParam_advances _).bind fun param => Build.lambda_advances param body _

theorem layerFunction_advances (split : LambdaCall) (innermost : Bool) (layer : Layer) :
    (split.layerFunction innermost layer).Advances := by
  have onward : Change.Advances (liftM (split.lambdaOver layer.call)) :=
    .lift (split.lambdaOver_advances layer.call)
  refine .get_bind fun tree => ?_
  split
  · exact .pure _
  · split
    · exact onward
    · refine .get_bind fun tree => ?_
      split
      · refine (Change.Advances.lift (Build.ident_advances _)).bind fun value => ?_
        refine .bind (fun tree =>
          .lift ((setKind_leads fun slot inside => ?_).mono fun _ _ _ _ => trivial)) fun _ => onward
        obtain rfl := List.mem_singleton.1 inside
        trivial
      · exact (Change.throw_renews _).advances

theorem layerFunctions_advances (split : LambdaCall) (layers : List Layer) :
    ∀ function ∈ split.layerFunctions layers, Change.Advances function := by
  intro function member
  rw [layerFunctions] at member
  split at member
  · cases member
  · rcases List.mem_cons.1 member with rfl | member
    · exact split.layerFunction_advances true _
    · obtain ⟨layer, -, rfl⟩ := List.mem_map.1 member
      exact split.layerFunction_advances false layer

end LambdaCall

namespace QuantifierCall

theorem negated_advances (body : Ref) : (negated body).Advances := by
  have added : Change.Advances (liftM (Build.unary .not body)) := .lift (Build.unary_advances _ _)
  refine .get_bind fun tree => ?_
  split
  · split <;> exact .pure _
  · exact (Change.require_advances _ _).bind fun _ => .lift (fun tree =>
      (alloc_leads (by simp [HasLists, Kind.slots, HasEntries]) _).mono fun _ _ _ _ => trivial)
  · exact added
  · exact added
  · exact added
  · exact (Change.throw_renews _).advances

theorem negateCall_renews (call : Ref) : (negateCall call).Renews := by
  refine .get_bind fun tree => ?_
  simp only
  split
  · exact Change.put_renews _ _ call
  · refine (Change.Advances.lift (Build.unary_advances _ _)).bind_renews fun negated => ?_
    split
    · exact (Change.Advances.lift (Build.paren_advances negated)).bind_renews fun inner =>
        Change.put_renews _ call inner
    · exact Change.put_renews _ call negated

/-- Inverting a quantifier puts the list of the parameters of its predicate into the changed
predicate. -/
theorem invert_renews (call : QuantifierCall) : call.invert.Renews := by
  intro tree
  refine .given fun stored => .get_bind ?_
  refine (Change.require_advances _ _ tree).bind fun called first leads _ => ?_
  refine (Change.require_advances _ _ first).bind fun lambda second leads' _ => ?_
  have leads := leads.trans leads'
  split
  · rename_i params _ parenthesized isLambda
    have has : tree.HasEntries (.many params) := stored lambda _ (by simp [isLambda, Kind.slots])
    refine (negated_advances _ second).bind fun body third leads' _ => ?_
    have leads := leads.trans leads'
    have hasLists : third.HasLists (.lambda params body parenthesized) := by
      simpa [HasLists, Kind.slots, HasEntries] using has.mono leads.lists
    refine (Change.Keeps.lift (setKind_leads hasLists)).bind fun _ fourth leads' _ => ?_
    have others : Change.Renews (do
        setKind called.access
          (.member called.receiver call.quantifier.dual.method called.conditional)
        negateCall call.call) := by
      refine Change.Advances.bind_renews (.lift fun tree => ?_) fun _ => negateCall_renews call.call
      exact (setKind_leads (by simp [HasLists, Kind.slots, HasEntries])).mono fun _ _ _ _ => trivial
    exact (others fourth).mono fun _ _ _ renews => (leads.trans leads').renews renews
  · exact (Change.throw_renews _ second).mono fun _ _ _ renews => leads.renews renews

end QuantifierCall

theorem CountedLoop.toElementLoop_renews (loop : CountedLoop) (name : String) (body : Ref) :
    (loop.toElementLoop name body).Renews := by
  refine .get_bind fun tree =>
    (Change.Advances.lift (Build.typeRef_advances "var")).bind_renews fun type => ?_
  refine Change.Advances.bind_renews (.lift fun tree => ?_) fun converted =>
    Change.put_renews _ loop.ref converted
  exact (alloc_leads (by simp [HasLists, Kind.slots, HasEntries]) _).mono fun _ _ _ _ => trivial

namespace ElementLoop

theorem source_advances (loop : ElementLoop) (access : Access)
    (name : String) : (loop.source access name).Advances := by
  cases access with
  | inPlace => exact .pure _
  | «local» =>
    exact (Build.localDecl_advances _ _ _).bind fun _ =>
      (Build.ident_advances name).bind fun _ => .pure _
  | array =>
    refine (Build.member_advances _ _ _).bind fun conversion =>
      (Build.invoke_advances conversion []).bind fun value => ?_
    exact (Build.localDecl_advances "var" name value).bind fun _ =>
      (Build.ident_advances name).bind fun _ => .pure _

theorem counted_advances (loop : ElementLoop) (target : Ref) (sizeMember counter : String)
    (body : Ref) :
    (loop.counted target sizeMember counter body).Advances := by
  refine (Build.int_advances 0).bind fun zero =>
    (Build.localDecl_advances "int" counter zero).bind fun declaration => ?_
  refine (Build.member_advances target sizeMember false).bind fun size =>
    (Build.ident_advances counter).bind fun tested => ?_
  refine (Build.binary_advances .lt tested size).bind fun condition =>
    (Build.ident_advances counter).bind fun stepped => ?_
  refine (Build.unary_advances .postInc stepped).bind fun step tree => ?_
  refine (allocList_leads [step]).bind fun steps middle _ has => .get_bind ?_
  refine (alloc_leads ?_ _).mono fun _ _ _ _ => trivial
  simpa [HasLists, Kind.slots, HasEntries, Range.empty, Range.entries] using has

theorem toCountedLoop_renews (loop : ElementLoop)
    (model : Model) (element : SymbolId) (access : Access) (sizeMember name counter : String) :
    (loop.toCountedLoop model element access sizeMember name counter).Renews := by
  refine .get_bind fun tree => ?_
  refine (Change.Advances.lift (loop.source_advances access name)).bind_renews
    fun (target, declaration) => ?_
  refine (Change.Advances.lift (indexElements_advances model element target counter _)).bind_renews
    fun body => ?_
  refine (Change.Advances.lift (loop.counted_advances target sizeMember counter body)).bind_renews
    fun converted => ?_
  refine (Change.put_renews _ loop.ref converted).bind fun _ => ?_
  cases declaration with
  | none => exact .pure _
  | some declaration => exact (Change.putBefore_renews converted [declaration]).advances

end ElementLoop

namespace Link

/-- Changes for links take a new version if there are links. -/
theorem forM_renews {change : Link → Change Unit} (renews : ∀ link, (change link).Renews)
    (first : Link)
    (others : List Link) : Change.Renews ((first :: others).forM change) := by
  induction others generalizing first with
  | nil => exact (renews first).bind fun _ => .pure _
  | cons second others ih => exact (renews first).bind fun _ => (ih second).advances

theorem inline_renews (link : Link) : link.inline.Renews :=
    .get_bind fun _ => Change.put_renews _ _ _

theorem remove_renews (list : Ref) (link : Link) : (link.remove list).Renews :=
  Change.demand_renews _ fun _ => spliceChild_leads list link.declaration []

end Link

namespace Temporary

theorem introduce_advances (name : String)
    (value next : Ref) : (introduce name value next).Advances := by
  refine .get_bind fun tree => (Change.require_advances _ _).bind fun called => ?_
  refine (Change.Advances.lift (Build.ident_advances name)).bind fun receiver => ?_
  refine .bind (.lift fun tree => ?_) fun _ => .lift (Build.localDecl_advances "var" name value)
  exact (setKind_leads (by simp [HasLists, Kind.slots, HasEntries])).mono fun _ _ _ _ => trivial

theorem introduceAll_advances (names : List String)
    (calls : List Ref) : (introduceAll names calls).Advances := by
  induction names generalizing calls with
  | nil => exact .pure _
  | cons name names ih =>
    match calls with
    | [] | [_] => exact .pure _
    | call :: next :: calls =>
      exact (introduce_advances name call next).bind fun _ =>
        (ih (next :: calls)).bind fun _ => .pure _

end Temporary

/-- Whatever is offered is good for one version, and has a result that a change of a tree has led
to, with a new version. -/
def OffersFor (tree : Tree) (offered : Option Action) : Prop :=
  ∀ action, offered = some action → action.base = tree.version ∧ tree.LeadsTo action.result ∧
    tree.Renews action.result

namespace Context

variable {context : Context}

theorem none_offersFor {tree : Tree} : Attempt.Yields (pure none) (OffersFor tree) :=
  .pure fun _ offered => absurd offered.symm (Option.some_ne_none _)

theorem refuse_offersFor {tree : Tree}
    (refusal : Refusal) : Attempt.Yields (Attempt.refuse refusal) (OffersFor tree) :=
  (Attempt.Yields.any _).bind fun _ _ => none_offersFor

/-- What comes of a change that takes a new version is offered for the version before. -/
theorem offer_renews {refactoring : Refactoring} {title : String} {start : Tree}
    {change : Change Unit}
    (leads : context.tree.LeadsTo start) (renews : change.Renews) :
    Attempt.Yields (context.offer refactoring title start change) (OffersFor context.tree) := by
  rw [offer]
  split
  · rename_i result changed
    refine (Attempt.Yields.any _).bind fun _ _ => .pure ?_
    rintro _ ⟨rfl⟩
    obtain ⟨leads', renews⟩ := renews start leads.listsStored _ _ changed
    exact ⟨rfl, leads.trans leads', leads.renews renews⟩
  · rintro log result log' ⟨⟩

section

variable (stored : context.tree.ListsStored) (ref : Ref)

include stored

theorem merge_renews {merging : Merging} (combines : merging.Advances) :
    Attempt.Yields (context.merge merging ref) (OffersFor context.tree) := by
  rw [merge]
  obtain ⟨leads, -⟩ :=
    CallRun.search_advances context.model context.settings.placeholder merging.method
      (context.tree.statementOf ref) (merging.accepts context.model) context.tree stored
  refine (Attempt.Yields.any _).bind fun _ _ => ?_
  split
  · exact refuse_offersFor _
  · rename_i run _
    exact (Attempt.Yields.any _).bind fun name _ =>
      offer_renews leads (run.merge_renews combines context.model name)

theorem splitFilter_renews : Attempt.Yields (context.splitFilter ref) (OffersFor context.tree) := by
  rw [splitFilter]
  split
  · exact refuse_offersFor _
  · rename_i split operands _
    refine offer_renews (.refl stored) (split.splitInto_renews fun function member => ?_)
    obtain ⟨operand, -, rfl⟩ := List.mem_map.1 member
    exact .lift (split.lambdaOver_advances operand)

theorem splitProjection_renews :
    Attempt.Yields (context.splitProjection ref) (OffersFor context.tree) := by
  rw [splitProjection]
  split
  · exact refuse_offersFor _
  · rename_i split layers _
    exact offer_renews (.refl stored)
      (split.splitInto_renews (split.layerFunctions_advances layers))

theorem invertQuantifier_renews :
    Attempt.Yields (context.invertQuantifier ref) (OffersFor context.tree) := by
  rw [invertQuantifier]
  split
  · exact refuse_offersFor _
  · rename_i call _
    exact offer_renews (.refl stored) call.invert_renews

theorem forToForEach_renews :
    Attempt.Yields (context.forToForEach ref) (OffersFor context.tree) := by
  rw [forToForEach]
  refine (Attempt.Yields.any _).bind fun found _ => ?_
  split
  · exact none_offersFor
  · rename_i loop
    refine (Attempt.Yields.any _).bind fun (name, _) _ => (Attempt.Yields.any _).bind fun _ _ => ?_
    obtain ⟨leads, -⟩ := nameElements_advances context.model loop.counter loop.collection name
      loop.body context.tree stored
    exact offer_renews leads (loop.toElementLoop_renews name _)

theorem forEachToFor_renews :
    Attempt.Yields (context.forEachToFor ref) (OffersFor context.tree) := by
  rw [forEachToFor]
  split
  · exact none_offersFor
  · split
    · exact refuse_offersFor _
    · exact refuse_offersFor _
    · refine (Attempt.Yields.any _).bind fun _ _ => (Attempt.Yields.any _).bind fun _ _ => ?_
      exact offer_renews (.refl stored) (ElementLoop.toCountedLoop_renews _ _ _ _ _ _ _)

theorem chainCalls_renews : Attempt.Yields (context.chainCalls ref) (OffersFor context.tree) := by
  rw [chainCalls]
  split
  · split
    · rintro log result log' ⟨⟩
    · rw [chainCallsAt]
      split
      · exact refuse_offersFor _
      · rename_i position _ _ some
        generalize context.tree.linksAt context.model
          (context.tree.children (context.tree.parent (context.tree.statementOf ref))) position
          = links at some ⊢
        cases links with
        | nil => exact absurd rfl some
        | cons first others =>
          refine offer_renews (.refl stored)
            (.bind (Link.forM_renews Link.inline_renews first others) fun _ => ?_)
          exact (Link.forM_renews (Link.remove_renews _) first others).advances
  · exact none_offersFor

theorem unchainCalls_renews :
    Attempt.Yields (context.unchainCalls ref) (OffersFor context.tree) := by
  rw [unchainCalls]
  split
  · split
    · split
      · exact refuse_offersFor _
      · split
        · exact refuse_offersFor _
        · refine (Attempt.Yields.any _).bind fun _ _ => offer_renews (.refl stored) ?_
          exact (Temporary.introduceAll_advances _ _).bind_renews fun declarations =>
            Change.putBefore_renews _ declarations
    · exact none_offersFor
  · exact none_offersFor

theorem attempt_renews (refactoring : Refactoring) :
    Attempt.Yields (context.attempt refactoring ref) (OffersFor context.tree) := by
  cases refactoring with
  | mergeWhere => exact merge_renews stored ref Merging.filters_advances
  | splitWhere => exact splitFilter_renews stored ref
  | mergeSelect => exact merge_renews stored ref Merging.projections_advances
  | splitSelect => exact splitProjection_renews stored ref
  | invertQuantifier => exact invertQuantifier_renews stored ref
  | forToForEach => exact forToForEach_renews stored ref
  | forEachToFor => exact forEachToFor_renews stored ref
  | chainCalls => exact chainCalls_renews stored ref
  | unchainCalls => exact unchainCalls_renews stored ref

/-- What is offered for a tree is good for the version of the tree, and its result has a version
that was taken since. -/
theorem offered_renews {refactoring : Refactoring} {action : Action}
    (offered : context.offered? refactoring ref = .ok (some action)) :
    action.base = context.tree.version ∧
      context.tree.LeadsTo action.result ∧ context.tree.Renews action.result :=
  attempt_renews stored ref refactoring #[] (some action) (context.attempt refactoring ref #[]).2
    (Prod.ext offered rfl)
    action rfl

end

end Context

end Refactory
