import Refactory.Proofs.Code.Types
import Refactory.Proofs.Refactoring.Chain
import Refactory.Proofs.Refactoring.Projection

/-!
# Refactorings keep types

Whatever a refactoring puts into a program, declarations have types for their types afterwards if
they had before (`Context.attempt_keepsTypes`).
-/
namespace Refactory

open Refactory.Tree

variable {statement ref : Ref} {model : Model}

/-- A change keeps the types of a tree where it comes to something, and its result is as said. -/
abbrev Change.KeepsTypes {α : Type} (change : Change α) :=
    Change.Keeps Tree.TypesFormed Tree.KeepsTypes change

namespace Change

variable {α β : Type} {tree : Tree}

/-- Putting a node in the place of one that is no type keeps the types. -/
theorem put_keepsTypes {target : Ref} (isOther : tree.IsOther target) (parent replacement : Ref) :
    Change.KeepsTypes (put parent target replacement) tree fun _ _ => True := by
  cases parent with
  | none => exact .lift (setRoot_keepsTypes replacement)
  | some number =>
    exact (Keeps.lift (replaceChild_keepsTypes isOther _ replacement)).bind fun _ _ _ _ =>
      .demand _ _

/-- Putting nodes in front of one that is no type keeps the types. -/
theorem putBefore_keepsTypes (isOther : tree.IsOther statement) (before : List Ref) :
    Change.KeepsTypes (putBefore statement before) tree fun _ _ => True := by
  rw [putBefore]
  refine .get_bind ?_
  simp only
  split
  · exact (Keeps.lift (spliceChild_keepsTypes isOther _ _)).bind fun _ _ _ _ => .demand _ _
  · exact (Keeps.lift (Build.block_keepsTypes _)).bind fun block _ keeps _ =>
      put_keepsTypes (keeps.isOther_of isOther) _ block

end Change

variable {tree : Tree}

/-- The merged function of a run is built with the types kept. -/
def Merging.KeepsTypes (merging : Merging) : Prop :=
  ∀ (tree : Tree) (model : Model) (name : String) (first : Abstraction) (others : List Abstraction),
    (∀ function ∈ first :: others, function.SparesTypes tree) →
      Edit.KeepsTypes (merging.combine model name first others) tree fun _ _ => True

theorem Merging.filters_keepsTypes : filters.KeepsTypes := fun _ model name _ _ spares =>
  Abstraction.conjoin_keepsTypes spares model name

theorem Merging.projections_keepsTypes : projections.KeepsTypes := fun _ model name _ _ spares =>
  Abstraction.compose_keepsTypes spares model name

/-- Merging a run keeps the types. -/
theorem CallRun.merge_keepsTypes {run : CallRun} {merging : Merging} (combines : merging.KeepsTypes)
    (isOther : tree.IsOther run.outer)
    (spares : ∀ function ∈ run.functions, function.SparesTypes tree) (model : Model)
    (name : String) : Change.KeepsTypes (run.merge merging model name) tree fun _ _ => True := by
  refine .get_bind ?_
  refine (Change.Keeps.lift (combines tree model name _ _ spares)).bind fun body _ first _ => ?_
  refine (Change.Keeps.lift (Build.param_keepsTypes name)).bind fun param _ second _ => ?_
  refine (Change.Keeps.lift (Build.lambda_keepsTypes param body false)).bind
    fun lambda _ third _ => ?_
  refine (Change.Keeps.lift (Build.invoke_keepsTypes run.anchor [lambda])).bind
    fun merged _ fourth _ => ?_
  exact Change.put_keepsTypes
    ((((first.trans second).trans third).trans fourth).isOther_of isOther) _ merged

namespace LambdaCall

/-- Calling a method once for each function keeps the types if the functions are built with the
types kept. -/
theorem callEach_keepsTypes {functions : List (Change Ref)} (method : String) (receiver : Ref)
    (conditional : Bool)
    (keepsTypes : ∀ function ∈ functions, ∀ after, tree.KeepsTypes after →
      Change.KeepsTypes function after fun _ _ => True) :
    Change.KeepsTypes (callEach method receiver conditional functions) tree fun _ _ => True := by
  induction functions generalizing tree receiver conditional with
  | nil => exact .pure trivial
  | cons function functions ih =>
    refine .given fun formed => ?_
    refine (keepsTypes function (.head _) tree (.refl formed)).bind fun function _ first _ => ?_
    refine (Change.Keeps.lift (Build.member_keepsTypes receiver method conditional)).bind
      fun access _ second _ => ?_
    refine (Change.Keeps.lift (Build.invoke_keepsTypes access [function])).bind
      fun call _ third _ => ?_
    exact ih call false fun other member after keeps =>
      keepsTypes other (.tail _ member) after (((first.trans second).trans third).trans keeps)

/-- Splitting a call keeps the types if the functions are built with the types kept. -/
theorem splitInto_keepsTypes {split : LambdaCall} {functions : List (Change Ref)}
    (isOther : tree.IsOther split.call)
    (keepsTypes : ∀ function ∈ functions, ∀ after, tree.KeepsTypes after →
      Change.KeepsTypes function after fun _ _ => True) :
    Change.KeepsTypes (split.splitInto functions) tree fun _ _ => True := by
  refine .get_bind ?_
  refine (callEach_keepsTypes _ _ _ keepsTypes).bind fun run _ keeps _ => ?_
  exact Change.put_keepsTypes (keeps.isOther_of isOther) _ run

theorem lambdaOver_keepsTypes (split : LambdaCall) (body : Ref) :
    Edit.KeepsTypes (split.lambdaOver body) tree fun _ _ => True :=
  (Build.copyOfParam_keepsTypes _).bind fun param _ _ _ =>
  (Build.lambda_keepsTypes param body _).weaken

/-- Making a function of a layer keeps the types. -/
theorem layerFunction_keepsTypes {layer : Layer}
    (isOther : tree.IsOther layer.hole) (split : LambdaCall) (innermost : Bool) :
    Change.KeepsTypes (split.layerFunction innermost layer) tree fun _ _ => True := by
  refine .get_bind ?_
  split
  · exact .pure trivial
  · have onward (after : Tree) : Change.KeepsTypes (liftM (split.lambdaOver layer.call)) after
        fun _ _ => True := .lift (split.lambdaOver_keepsTypes layer.call)
    split
    · exact onward tree
    · refine .get_bind ?_
      split
      · refine (Change.Keeps.lift (Build.ident_keepsTypes _)).bind fun value middle keeps _ => ?_
        have noType := Bool.eq_false_iff.2 (keeps.isOther_of isOther).2
        exact .bind (.lift (setKind_keepsTypes trivial noType.symm)) fun _ after _ _ => onward after
      · rintro - _ _ ⟨⟩

/-- Making the functions of layers keeps the types. -/
theorem layerFunctions_keepsTypes {layers : List Layer}
    (isOther : ∀ layer ∈ layers, tree.IsOther layer.hole) (split : LambdaCall) :
    ∀ function ∈ split.layerFunctions layers, ∀ after, tree.KeepsTypes after →
      Change.KeepsTypes function after fun _ _ => True := by
  intro function member after keeps
  rw [layerFunctions] at member
  split at member
  · cases member
  · rename_i first others same
    have inLayers {layer : Layer} (inside : layer ∈ first :: others) : after.IsOther layer.hole :=
      keeps.isOther_of (isOther layer (List.mem_reverse.1 (same ▸ inside)))
    rcases List.mem_cons.1 member with rfl | member
    · exact layerFunction_keepsTypes (inLayers (.head _)) split true
    · obtain ⟨layer, inside, rfl⟩ := List.mem_map.1 member
      exact layerFunction_keepsTypes (inLayers (.tail _ inside)) split false

end LambdaCall

namespace QuantifierCall

theorem negated_keepsTypes
    (body : Ref) : Change.KeepsTypes (negated body) tree fun _ _ => True := by
  have added : Change.KeepsTypes (liftM (Build.unary .not body)) tree fun _ _ => True :=
    .lift (Build.unary_keepsTypes _ _).weaken
  refine .get_bind ?_
  split
  · split <;> exact .pure trivial
  · exact (Change.Keeps.require _ _).bind fun _ _ _ _ => .lift (.weaken (alloc_isOther trivial rfl))
  · exact added
  · exact added
  · exact added
  · rintro - _ _ ⟨⟩

/-- Negating a call where it stands keeps the types. -/
theorem negateCall_keepsTypes {call : Ref} (isOther : tree.IsOther call) :
    Change.KeepsTypes (negateCall call) tree fun _ _ => True := by
  refine .get_bind ?_
  simp only
  split
  · rename_i isNegation
    refine Change.put_keepsTypes ?_ _ _
    obtain ⟨-, isNegation⟩ := Bool.and_eq_true_iff.1 isNegation
    rw [Tree.isNegation] at isNegation
    split at isNegation
    · rename_i isUnary
      exact isOther_of_kind isUnary (by simp) rfl
    · cases isNegation
  · refine (Change.Keeps.lift (Build.unary_keepsTypes _ _)).bind fun negated _ first _ => ?_
    split
    · refine (Change.Keeps.lift (Build.paren_keepsTypes negated)).bind fun inner _ second _ => ?_
      exact Change.put_keepsTypes ((first.trans second).isOther_of isOther) _ inner
    · exact Change.put_keepsTypes (first.isOther_of isOther) _ negated

/-- Inverting a quantifier keeps the types. -/
theorem invert_keepsTypes {call : QuantifierCall} (isOther : tree.IsOther call.call) :
    Change.KeepsTypes call.invert tree fun _ _ => True := by
  refine .get_bind ((Change.Keeps.require _ _).bind fun called _ first isCalled => ?_)
  refine (Change.Keeps.require _ _).bind fun lambda _ second _ => ?_
  split
  · rename_i isLambda
    have isLambda : tree.IsOther lambda := isOther_of_kind isLambda (by simp) rfl
    refine (negated_keepsTypes _).bind fun body _ third _ => ?_
    have keeps := (first.trans second).trans third
    have noType := Bool.eq_false_iff.2 (keeps.isOther_of isLambda).2
    refine .bind (.lift (setKind_keepsTypes trivial noType.symm)) fun _ _ fourth _ => ?_
    have keeps := keeps.trans fourth
    have noType := Bool.eq_false_iff.2 (keeps.isOther_of (isOther_of_calledMember? isCalled).2).2
    exact .bind (.lift (setKind_keepsTypes trivial noType.symm)) fun _ _ fifth _ =>
      negateCall_keepsTypes ((keeps.trans fifth).isOther_of isOther)
  · rintro - _ _ ⟨⟩

end QuantifierCall

/-- Making a loop over elements keeps the types. -/
theorem CountedLoop.toElementLoop_keepsTypes {loop : CountedLoop} (isOther : tree.IsOther loop.ref)
    (name : String)
    (body : Ref) : Change.KeepsTypes (loop.toElementLoop name body) tree fun _ _ => True := by
  refine .get_bind ?_
  refine (Change.Keeps.lift (Build.typeRef_keepsTypes "var")).bind fun type _ first _ => ?_
  refine .bind (.lift (alloc_isOther trivial rfl)) fun converted _ second _ => ?_
  exact Change.put_keepsTypes ((first.trans second).isOther_of isOther) _ converted

namespace ElementLoop

theorem source_keepsTypes (loop : ElementLoop) (access : Access) (name : String) :
    Edit.KeepsTypes (loop.source access name) tree fun _ _ => True := by
  cases access with
  | inPlace => exact .pure trivial
  | «local» =>
    refine (Build.localDecl_keepsTypes _ _ _).bind fun _ _ _ _ => ?_
    exact (Build.ident_keepsTypes name).bind fun _ _ _ _ => .pure trivial
  | array =>
    refine (Build.member_keepsTypes _ _ _).bind fun conversion _ _ _ => ?_
    refine (Build.invoke_keepsTypes conversion []).bind fun value _ _ _ => ?_
    refine (Build.localDecl_keepsTypes "var" name value).bind fun _ _ _ _ => ?_
    exact (Build.ident_keepsTypes name).bind fun _ _ _ _ => .pure trivial

theorem counted_keepsTypes (loop : ElementLoop) (target : Ref) (sizeMember counter : String)
    (body : Ref) :
    Edit.KeepsTypes (loop.counted target sizeMember counter body) tree fun ref after =>
    after.IsOther ref := by
  refine (Build.int_keepsTypes 0).bind fun zero _ _ _ => ?_
  refine (Build.localDecl_keepsTypes "int" counter zero).bind fun declaration _ _ _ => ?_
  refine (Build.member_keepsTypes target sizeMember false).bind fun size _ _ _ => ?_
  refine (Build.ident_keepsTypes counter).bind fun tested _ _ _ => ?_
  refine (Build.binary_keepsTypes .lt tested size).bind fun condition _ _ _ => ?_
  refine (Build.ident_keepsTypes counter).bind fun stepped _ _ _ => ?_
  refine (Build.unary_keepsTypes .postInc stepped).bind fun step _ _ _ => ?_
  refine (allocList_keepsTypes [step]).bind fun steps _ _ _ => .get_bind ?_
  exact alloc_isOther trivial rfl

/-- Making a counted loop keeps the types. -/
theorem toCountedLoop_keepsTypes {loop : ElementLoop} (isOther : tree.IsOther loop.ref)
    (model : Model)
    (element : SymbolId) (access : Access) (sizeMember name counter : String) :
    Change.KeepsTypes (loop.toCountedLoop model element access sizeMember name counter) tree
    fun _ _ => True := by
  refine .get_bind ?_
  refine (Change.Keeps.lift (loop.source_keepsTypes access name)).bind
    fun (target, declaration) _ first _ => ?_
  refine (Change.Keeps.lift (indexElements_keepsTypes model element target counter _)).bind
    fun body _ second _ => ?_
  refine (Change.Keeps.lift (loop.counted_keepsTypes target sizeMember counter body)).bind
    fun converted _ third isNew => ?_
  refine (Change.put_keepsTypes
    (((first.trans second).trans third).isOther_of isOther) _ converted).bind
    fun _ _ fourth _ => ?_
  cases declaration with
  | none => exact .pure trivial
  | some declaration => exact Change.putBefore_keepsTypes (fourth.isOther_of isNew) _

end ElementLoop

namespace Link

/-- Inlining temporaries keeps the types, and so does removing their declarations. -/
theorem forM_keepsTypes {links : List Link} {change : Link → Change Unit} {target : Link → Ref}
    (isOther : ∀ link ∈ links, tree.IsOther (target link))
    (keepsTypes : ∀ link (after : Tree), after.IsOther (target link) →
      Change.KeepsTypes (change link) after fun _ _ => True) :
    Change.KeepsTypes (links.forM change) tree fun _ _ => True := by
  induction links generalizing tree with
  | nil => exact .pure trivial
  | cons link links ih =>
    exact (keepsTypes link tree (isOther link (.head _))).bind fun _ _ keeps _ =>
      ih fun other member => keeps.isOther_of (isOther other (.tail _ member))

theorem inline_keepsTypes (link : Link) (isOther : tree.IsOther link.use) :
    Change.KeepsTypes link.inline tree fun _ _ => True :=
    .get_bind (Change.put_keepsTypes isOther _ _)

theorem remove_keepsTypes (list : Ref) (link : Link) (isOther : tree.IsOther link.declaration) :
    Change.KeepsTypes (link.remove list) tree fun _ _ => True :=
  (Change.Keeps.lift (spliceChild_keepsTypes isOther list [])).bind fun _ _ _ _ => .demand _ _

end Link

namespace Temporary

theorem introduce_keepsTypes (name : String) (value next : Ref) :
    Change.KeepsTypes (introduce name value next) tree fun _ _ => True := by
  refine .get_bind ((Change.Keeps.require _ _).bind fun called _ first isCalled => ?_)
  refine (Change.Keeps.lift (Build.ident_keepsTypes name)).bind fun receiver _ second _ => ?_
  have noType :=
    Bool.eq_false_iff.2 ((first.trans second).isOther_of (isOther_of_calledMember? isCalled).2).2
  exact .bind (.lift (setKind_keepsTypes trivial noType.symm)) fun _ _ _ _ =>
    .lift (Build.localDecl_keepsTypes "var" name value).weaken

/-- Introducing temporaries keeps the types. -/
theorem introduceAll_keepsTypes (names : List String) (calls : List Ref) :
    Change.KeepsTypes (introduceAll names calls) tree fun _ _ => True := by
  induction names generalizing tree calls with
  | nil => exact .pure trivial
  | cons name names ih =>
    match calls with
    | [] | [_] => exact .pure trivial
    | call :: next :: calls =>
      exact (introduce_keepsTypes name call next).bind fun _ _ _ _ =>
        (ih (next :: calls)).bind fun _ _ _ _ => .pure trivial

end Temporary

namespace Context

variable {context : Context}

/-- What comes of a change that keeps the types is offered with formed types. -/
theorem offer_typesFormed {refactoring : Refactoring} {title : String} {start : Tree}
    {change : Change Unit}
    (formed : start.TypesFormed) (keeps : Change.KeepsTypes change start fun _ _ => True) :
    Attempt.Yields (context.offer refactoring title start change) (Offers Tree.TypesFormed) := by
  rw [offer]
  split
  · rename_i result changed
    refine (Attempt.Yields.any _).bind fun _ _ => .pure ?_
    rintro _ ⟨rfl⟩
    exact (keeps formed _ _ changed).1.formed
  · rintro log result log' ⟨⟩

/-- Merging calls is offered with formed types. -/
theorem merge_typesFormed {merging : Merging} (combines : merging.KeepsTypes)
    (formed : context.tree.TypesFormed)
    (ref : Ref) : Attempt.Yields (context.merge merging ref) (Offers Tree.TypesFormed) := by
  rw [merge]
  obtain ⟨keeps, found⟩ :=
    CallRun.search_keepsTypes context.model context.settings.placeholder merging.method
      (context.tree.statementOf ref) (merging.accepts context.model) formed
  refine (Attempt.Yields.any _).bind fun _ _ => ?_
  split
  · exact .refuse _
  · rename_i run isFound
    obtain ⟨isOther, spares⟩ := found run isFound
    exact (Attempt.Yields.any _).bind fun name _ => offer_typesFormed keeps.formed
      (CallRun.merge_keepsTypes combines isOther spares context.model name)

theorem isOther_of_mem_lambdaCalls {method : String} {split : LambdaCall}
    (member : split ∈ context.lambdaCalls method ref) : context.tree.IsOther split.call := by
  obtain ⟨call, -, found⟩ := List.mem_filterMap.1 member
  obtain ⟨_, -, found⟩ := Option.bind_eq_some_iff.1 found
  obtain ⟨_, -, found⟩ := Option.bind_eq_some_iff.1 found
  obtain ⟨called, isCalled, found⟩ := Option.bind_eq_some_iff.1 found
  obtain rfl := Option.some.inj found
  exact (isOther_of_calledMember? isCalled).1

/-- Splitting a filter is offered with formed types. -/
theorem splitFilter_typesFormed (formed : context.tree.TypesFormed) (ref : Ref) :
    Attempt.Yields (context.splitFilter ref) (Offers Tree.TypesFormed) := by
  rw [splitFilter]
  split
  · exact .refuse _
  · rename_i split operands found
    obtain ⟨split', member, found⟩ := List.exists_of_findSome?_eq_some found
    obtain ⟨_, -, same⟩ := Option.map_eq_some_iff.1 found
    obtain ⟨rfl, rfl⟩ := Prod.mk.inj same
    refine offer_typesFormed formed
      (split'.splitInto_keepsTypes (isOther_of_mem_lambdaCalls member) ?_)
    intro function isFunction after _
    obtain ⟨operand, -, rfl⟩ := List.mem_map.1 isFunction
    exact .lift (split'.lambdaOver_keepsTypes operand)

/-- The holes of layers are arguments. -/
theorem isOther_of_layersWithin {tree : Tree} {referent : Referent} {bound : Nat}
    {layers : List Layer} (found : tree.layersWithin model referent bound ref = some layers) :
    ∀ layer ∈ layers, tree.IsOther layer.hole := by
  have isOther {callee : Ref} {arguments : Range} {hole : Passed} {follows : Bool}
      (isHole : tree.hole? model referent callee (tree.passed arguments) = some (hole, follows)) :
      tree.IsOther hole.argument := by
    obtain ⟨ref, -, isPassed⟩ := List.mem_filterMap.1 (hole?_eq_some isHole).1
    split at isPassed
    · rename_i isArgument
      obtain rfl := Option.some.inj isPassed
      exact isOther_of_kind isArgument (by simp) rfl
    · cases isPassed
  induction bound generalizing ref layers with
  | zero => cases found
  | succ bound ih =>
    rw [layersWithin] at found
    split at found
    · split at found
      · rename_i hole isHole
        obtain ⟨inner, isInner, rfl⟩ := Option.map_eq_some_iff.1 found
        rintro layer (_ | ⟨_, member⟩)
        · exact isOther isHole
        · exact ih isInner layer member
      · rename_i hole isHole
        obtain rfl := Option.some.inj found
        rintro layer (_ | ⟨_, ⟨⟩⟩)
        exact isOther isHole
      · cases found
    · cases found

/-- Splitting a projection is offered with formed types. -/
theorem splitProjection_typesFormed (formed : context.tree.TypesFormed) (ref : Ref) :
    Attempt.Yields (context.splitProjection ref) (Offers Tree.TypesFormed) := by
  rw [splitProjection]
  split
  · exact .refuse _
  · rename_i split layers found
    obtain ⟨split', member, found⟩ := List.exists_of_findSome?_eq_some found
    obtain ⟨_, isLayers, same⟩ := Option.map_eq_some_iff.1 found
    obtain ⟨rfl, rfl⟩ := Prod.mk.inj same
    obtain ⟨symbol, -, isLayers⟩ := Option.bind_eq_some_iff.1 isLayers
    have holes := isOther_of_layersWithin (Option.filter_eq_some_iff.1 isLayers).1
    exact offer_typesFormed formed (split'.splitInto_keepsTypes (isOther_of_mem_lambdaCalls member)
      (split'.layerFunctions_keepsTypes holes))

/-- Inverting a quantifier is offered with formed types. -/
theorem invertQuantifier_typesFormed (formed : context.tree.TypesFormed) (ref : Ref) :
    Attempt.Yields (context.invertQuantifier ref) (Offers Tree.TypesFormed) := by
  rw [invertQuantifier]
  simp only
  split
  · exact .refuse _
  · rename_i call found
    obtain ⟨ref, -, found⟩ := List.exists_of_findSome?_eq_some found
    obtain ⟨called, isCalled, found⟩ := Option.bind_eq_some_iff.1 found
    obtain ⟨_, -, found⟩ := Option.bind_eq_some_iff.1 found
    obtain ⟨_, -, found⟩ := Option.bind_eq_some_iff.1 found
    obtain ⟨_, -, found⟩ := Option.bind_eq_some_iff.1 found
    obtain ⟨_, -, found⟩ := Option.bind_eq_some_iff.1 found
    obtain rfl := Option.some.inj found
    exact offer_typesFormed formed
      (QuantifierCall.invert_keepsTypes (isOther_of_calledMember? isCalled).1)

theorem isOther_of_countedLoop? {tree : Tree} {loop : CountedLoop}
    (found : tree.countedLoop? model ref = some loop) : tree.IsOther loop.ref := by
  rw [countedLoop?] at found
  split at found
  · rename_i isLoop
    obtain ⟨-, -, found⟩ := Option.bind_eq_some_iff.1 found
    obtain ⟨_, -, found⟩ := Option.bind_eq_some_iff.1 found
    obtain ⟨_, -, found⟩ := Option.bind_eq_some_iff.1 found
    obtain ⟨-, -, found⟩ := Option.bind_eq_some_iff.1 found
    split at found
    · obtain ⟨-, -, found⟩ := Option.bind_eq_some_iff.1 found
      obtain ⟨_, -, found⟩ := Option.bind_eq_some_iff.1 found
      obtain ⟨-, -, found⟩ := Option.bind_eq_some_iff.1 found
      obtain ⟨_, -, found⟩ := Option.bind_eq_some_iff.1 found
      obtain ⟨-, -, found⟩ := Option.bind_eq_some_iff.1 found
      obtain rfl := Option.some.inj found
      exact isOther_of_kind isLoop (by simp) rfl
    · cases found
  · cases found

theorem firstSafe_yields (loops : List CountedLoop) :
    Attempt.Yields (context.firstSafe loops) fun found => ∀ loop ∈ found, loop ∈ loops := by
  induction loops with
  | nil => exact .pure fun _ isFound => absurd isFound (Option.not_mem_none _)
  | cons loop loops ih =>
    rw [firstSafe]
    split
    · refine .pure fun found isFound => ?_
      obtain rfl := Option.mem_some_iff.1 isFound
      exact .head _
    · refine (Attempt.Yields.any _).bind fun _ _ log found log' come other isFound => ?_
      exact .tail _ (ih log found log' come other isFound)

/-- Converting a counted loop is offered with formed types. -/
theorem forToForEach_typesFormed (formed : context.tree.TypesFormed) (ref : Ref) :
    Attempt.Yields (context.forToForEach ref) (Offers Tree.TypesFormed) := by
  rw [forToForEach]
  simp only
  refine (firstSafe_yields _).bind fun found isFound => ?_
  split
  · exact .none
  · rename_i loop
    obtain ⟨_, -, isLoop⟩ := List.mem_filterMap.1 (isFound loop rfl)
    refine (Attempt.Yields.any _).bind fun (name, _) _ => (Attempt.Yields.any _).bind fun _ _ => ?_
    obtain ⟨keeps, -⟩ :=
      nameElements_keepsTypes context.model loop.counter loop.collection name loop.body formed
    exact offer_typesFormed keeps.formed
      (loop.toElementLoop_keepsTypes (keeps.isOther_of (isOther_of_countedLoop? isLoop)) name _)

/-- Converting a loop over elements is offered with formed types. -/
theorem forEachToFor_typesFormed (formed : context.tree.TypesFormed) (ref : Ref) :
    Attempt.Yields (context.forEachToFor ref) (Offers Tree.TypesFormed) := by
  rw [forEachToFor]
  simp only
  split
  · exact .none
  · rename_i loop element found
    obtain ⟨_, isLoop, found⟩ := Option.bind_eq_some_iff.1 found
    obtain ⟨_, -, found⟩ := Option.bind_eq_some_iff.1 found
    obtain ⟨rfl, rfl⟩ := Prod.mk.inj (Option.some.inj found)
    obtain ⟨_, -, isLoop⟩ := List.exists_of_findSome?_eq_some isLoop
    split
    · exact .refuse _
    · exact .refuse _
    · refine (Attempt.Yields.any _).bind fun (name, scope) _ =>
        (Attempt.Yields.any _).bind fun (counter, _) _ => ?_
      refine offer_typesFormed formed (ElementLoop.toCountedLoop_keepsTypes ?_ _ _ _ _ _ _)
      rw [elementLoop?] at isLoop
      split at isLoop
      · rename_i isForEach
        obtain rfl := Option.some.inj isLoop
        exact isOther_of_kind isForEach (by simp) rfl
      · cases isLoop

/-- A declaration of a call is no type. -/
theorem isOther_of_callDeclaration? {tree : Tree} {temporary : CallDeclaration}
    (found : tree.callDeclaration? model statement = some temporary) :
    tree.IsOther temporary.declaration := by
  rw [callDeclaration?] at found
  split at found
  · rename_i isDecl
    split at found
    · split at found
      · obtain ⟨_, -, found⟩ := Option.bind_eq_some_iff.1 found
        obtain ⟨_, -, found⟩ := Option.bind_eq_some_iff.1 found
        obtain rfl := Option.some.inj found
        exact isOther_of_kind isDecl (by simp) rfl
      · cases found
    · cases found
  · cases found

/-- Neither the uses nor the declarations of temporaries are types if nothing that refers to a
symbol is one. -/
theorem isOther_of_mem_linksAt {tree : Tree}
    (names : ∀ ref, (model.symbolOf ref).isSome → tree.IsOther ref) {statements : List Ref}
    {place : Nat} {link : Link} (member : link ∈ tree.linksAt model statements place) :
    tree.IsOther link.use ∧ tree.IsOther link.declaration := by
  obtain ⟨refers, temporary, statement, found, isDeclaration, -⟩ := exists_of_mem_linksAt member
  exact ⟨names link.use refers, isDeclaration ▸ isOther_of_callDeclaration? found⟩

/-- Inlining temporaries is offered with formed types. -/
theorem chainCalls_typesFormed (formed : context.tree.TypesFormed)
    (names : ∀ ref, (context.model.symbolOf ref).isSome → context.tree.IsOther ref) (ref : Ref) :
    Attempt.Yields (context.chainCalls ref) (Offers Tree.TypesFormed) := by
  rw [chainCalls]
  split
  · split
    · rintro log result log' ⟨⟩
    · rename_i position _
      rw [chainCallsAt]
      simp only
      split
      · exact .refuse _
      · have isOther (link : Link) (member : link ∈ context.tree.linksAt context.model
            (context.tree.children (context.tree.parent (context.tree.statementOf ref)))
            position) := isOther_of_mem_linksAt names member
        refine offer_typesFormed formed ?_
        refine (Link.forM_keepsTypes (fun link member => (isOther link member).1)
          fun link _ isUse => link.inline_keepsTypes isUse).bind fun _ _ keeps _ => ?_
        exact Link.forM_keepsTypes (fun link member => keeps.isOther_of (isOther link member).2)
          fun link _ isDeclaration => Link.remove_keepsTypes _ link isDeclaration
  · exact .none

theorem isOther_of_canFollowTemporaries {tree : Tree}
    (isSimple : tree.canFollowTemporaries statement) : tree.IsOther statement := by
  rw [canFollowTemporaries] at isSimple
  obtain ⟨isSimple, -⟩ := Bool.and_eq_true_iff.1 isSimple
  split at isSimple
  · rename_i isKind
    exact isOther_of_kind isKind (by simp) rfl
  · rename_i isKind
    exact isOther_of_kind isKind (by simp) rfl
  · rename_i isKind
    exact isOther_of_kind isKind (by simp) rfl
  · cases isSimple

/-- Introducing temporaries is offered with formed types. -/
theorem unchainCalls_typesFormed (formed : context.tree.TypesFormed) (ref : Ref) :
    Attempt.Yields (context.unchainCalls ref) (Offers Tree.TypesFormed) := by
  rw [unchainCalls]
  split
  · rename_i isSimple
    have isOther := isOther_of_canFollowTemporaries isSimple
    split
    · split
      · exact .refuse _
      · split
        · exact .refuse _
        · refine (Attempt.Yields.any _).bind fun _ _ => offer_typesFormed formed ?_
          exact (Temporary.introduceAll_keepsTypes _ _).bind fun declarations _ keeps _ =>
            Change.putBefore_keepsTypes (keeps.isOther_of isOther) declarations
    · exact .none
  · exact .none

/-- Whatever is offered at a node has formed types. -/
theorem attempt_typesFormed (refactoring : Refactoring) (formed : context.tree.TypesFormed)
    (names : ∀ ref, (context.model.symbolOf ref).isSome → context.tree.IsOther ref) (ref : Ref) :
    Attempt.Yields (context.attempt refactoring ref) (Offers Tree.TypesFormed) := by
  cases refactoring with
  | mergeWhere => exact merge_typesFormed Merging.filters_keepsTypes formed ref
  | splitWhere => exact splitFilter_typesFormed formed ref
  | mergeSelect => exact merge_typesFormed Merging.projections_keepsTypes formed ref
  | splitSelect => exact splitProjection_typesFormed formed ref
  | invertQuantifier => exact invertQuantifier_typesFormed formed ref
  | forToForEach => exact forToForEach_typesFormed formed ref
  | forEachToFor => exact forEachToFor_typesFormed formed ref
  | chainCalls => exact chainCalls_typesFormed formed names ref
  | unchainCalls => exact unchainCalls_typesFormed formed ref

end Context

end Refactory
