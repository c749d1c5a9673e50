import Refactory.Session
import Refactory.Proofs.Refactoring.Preservation
import Refactory.Proofs.Refactoring.Versions
import Mathlib.Logic.Relation

/-!
# Versions tell trees apart

A session goes on in steps: trees are made, read, copied, edited, and refactorings are offered for
them. Whatever the steps, trees of one version are the same (`Session.versions_identify_trees`),
also where one of them has been kept since long before. So an action, which knows its base by the
version only, is good for the trees that are the same as its base, and never for its own result.

The lists that an operation puts into a node must lie in the list store of the tree. Else the list
would get its entries by a later edit that takes no version.
-/
namespace Refactory

namespace Tree

/-- An edit with all that it is given. -/
inductive Operation where
  /-- Adding a node. -/
  | alloc (kind : NodeKind) (span : Span)
  /-- Adding a list. -/
  | allocList (refs : List Ref)
  /-- Giving a node another kind. -/
  | setKind (ref : Ref) (kind : NodeKind)
  /-- Making a node the root. -/
  | setRoot (root : Ref)
  /-- Putting a node in the place of another. -/
  | replace (target replacement : Ref)
  /-- Putting a node in the place of a child. -/
  | replaceChild (parent target replacement : Ref)
  /-- Putting nodes in the place of an element of a list. -/
  | spliceChild (parent target : Ref) (replacements : List Ref)
  /-- Copying a node and everything below it. -/
  | duplicate (ref : Ref)

namespace Operation

/-- What an operation does, whatever its result. -/
def run : Operation → Edit Unit
  | alloc kind span => do let _ ← Tree.alloc kind span
  | allocList refs => do let _ ← Tree.allocList refs
  | setKind ref kind => Tree.setKind ref kind
  | setRoot root => Tree.setRoot root
  | replace target replacement => do let _ ← Tree.replace target replacement
  | replaceChild parent target replacement => do let _ ← Tree.replaceChild parent target replacement
  | spliceChild parent target replacements => do let _ ← Tree.spliceChild parent target replacements
  | duplicate ref => do let _ ← Tree.duplicate ref

/-- The lists of a kind that is put into a node lie in the list store. -/
def Fits (tree : Tree) : Operation → Prop
  | alloc kind _ | setKind _ kind => tree.HasLists kind
  | _ => True

/-- An operation takes a new version of a tree, or leaves it the same. -/
theorem run_leads {tree : Tree} {operation : Operation} (fits : operation.Fits tree) :
    Edit.Leads operation.run tree fun _ _ => True := by
  cases operation with
  | alloc kind span => exact (alloc_leads fits span).bind fun _ _ _ _ => .pure trivial
  | allocList refs => exact (allocList_leads refs).bind fun _ _ _ _ => .pure trivial
  | setKind ref kind => exact (setKind_leads fits).mono fun _ _ _ _ => trivial
  | setRoot root => exact (setRoot_leads root).mono fun _ _ _ _ => trivial
  | replace target replacement =>
    exact (replace_leads target replacement).bind fun _ _ _ _ => .pure trivial
  | replaceChild parent target replacement =>
    exact (replaceChild_leads parent target replacement).bind fun _ _ _ _ => .pure trivial
  | spliceChild parent target replacements =>
    exact (spliceChild_leads parent target replacements).bind fun _ _ _ _ => .pure trivial
  | duplicate ref => exact (duplicate_leads ref).bind fun _ _ _ _ => .pure trivial

end Operation

end Tree

namespace Session

/-- A tree of a session as it is edited, with the clock of the session. -/
def current (session : Session) (number : Nat) : Tree :=
    { session.tree number with clock := session.clock }

/-- A step of a session makes or changes the tree of one number. -/
inductive Step (before : Session) : Nat → Session → Prop
  /-- A tree is made. -/
  | create : Step before before.trees.size (create before).2
  /-- A program is read. -/
  | read {source : String} {tree : Tree} (parsed : Tree.parse before.clock source = .ok tree) :
      Step before before.trees.size ⟨before.trees.push tree, tree.clock⟩
  /-- A tree is copied. -/
  | copy {number : Nat} (inside : number < before.trees.size) : Step before before.trees.size
    (copy number before).2
  /-- A tree is copied over another. -/
  | assign {target number : Nat} (hasTarget : target < before.trees.size)
      (inside : number < before.trees.size) :
      Step before target (assign target number before).2
  /-- A tree is edited. -/
  | edit {number : Nat} (inside : number < before.trees.size) (operation : Tree.Operation)
      (fits : operation.Fits (before.tree number)) :
      Step before number (before.edit number operation.run).2
  /-- A refactoring is offered for a tree. -/
  | offer {number : Nat} {model : Model} {settings : Settings} {refactoring : Refactoring}
      {ref : Ref} {action : Action}
      (inside : number < before.trees.size)
      (offered : Context.offered? ⟨before.current number, model, settings⟩ refactoring ref
        = .ok (some action)) :
      Step before before.trees.size ⟨before.trees.push action.result, action.result.clock⟩

/-- A session goes on to another by any number of steps. -/
def GoesOn : Session → Session → Prop :=
    Relation.ReflTransGen fun before after => ∃ number, Step before number after

/-- All versions were taken from the clock, the lists of all trees lie in their list stores, and
trees of one version are the same. -/
structure Sound (session : Session) : Prop where
  /-- The versions were taken from the clock. -/
  version : ∀ tree ∈ session.trees, tree.version < session.clock
  /-- The lists lie in the list stores. -/
  listsStored : ∀ tree ∈ session.trees, tree.ListsStored
  /-- Trees of one version are the same. -/
  same : ∀ left ∈ session.trees, ∀ right ∈ session.trees, left.version = right.version →
    left.Same right

/-- A tree is the same as one of a session and has its version, or it has a version that the session
had not given. -/
def Traces (session : Session) (tree : Tree) : Prop :=
  (∃ old ∈ session.trees, old.version = tree.version ∧ old.Same tree) ∨ session.clock ≤ tree.version

/-- After a step there is at most one tree that was not there before, and it can be traced back. -/
structure Makes (before : Session) (made : Tree) (after : Session) : Prop where
  /-- The clock does not go back. -/
  clock : before.clock ≤ after.clock
  /-- All other trees were there. -/
  trees : ∀ tree ∈ after.trees, tree ∈ before.trees ∨ tree = made
  /-- The lists of the tree lie in its list store. -/
  listsStored : made.ListsStored
  /-- The version of the tree was taken from the clock. -/
  version : made.version < after.clock
  /-- The tree can be traced back. -/
  traces : before.Traces made

variable {before middle after session later : Session} {tree : Tree} {number : Nat}

theorem tree_mem (inside : number < session.trees.size) : session.tree number ∈ session.trees := by
  rw [Session.tree, Array.getElem?_eq_getElem inside]
  exact Array.getElem_mem inside

/-- The clock makes no difference to what a tree is. -/
theorem same_current (session : Session)
    (number : Nat) : (session.tree number).Same (session.current number) :=
  ⟨rfl, fun _ => rfl, fun _ => rfl, fun _ => rfl⟩

theorem Sound.current (sound : session.Sound) (inside : number < session.trees.size) :
    (session.current number).ListsStored :=
  show (session.tree number).ListsStored from sound.listsStored _ (tree_mem inside)

/-- A tree of a sound session can be traced back to itself. -/
theorem traces_of_mem (member : tree ∈ session.trees) : session.Traces tree :=
    .inl ⟨tree, member, rfl, .refl tree⟩

/-- What an edit of a tree of a session leads to can be traced back, and its version was taken from
the clock. -/
theorem Sound.traces_of_leadsTo (sound : before.Sound) (inside : number < before.trees.size)
    {made : Tree} (leads : (before.current number).LeadsTo made) :
    made.version < made.clock ∧ before.Traces made := by
  have member := tree_mem inside
  have older := sound.version _ member
  obtain ⟨version, same⟩ | renews := leads.version
  · have version : made.version = (before.tree number).version := version
    exact ⟨version ▸ Nat.lt_of_lt_of_le older leads.clock,
      .inl ⟨_, member, version.symm, (before.same_current number).trans same⟩⟩
  · exact ⟨renews.2, .inr renews.1⟩

/-- What each step does: it makes one tree. -/
theorem Step.makes (step : Step before number after)
    (sound : before.Sound) : ∃ made, before.Makes made after := by
  have pushed {made tree : Tree}
      (member : tree ∈ before.trees.push made) : tree ∈ before.trees ∨ tree = made :=
    Array.mem_push.1 member
  have replaced {place : Nat} {made tree : Tree}
      (member : tree ∈ before.trees.setIfInBounds place made) :
      tree ∈ before.trees ∨ tree = made := Array.mem_or_eq_of_mem_setIfInBounds member
  have kept {number : Nat} (inside : number < before.trees.size) {made : Tree}
      (leads : (before.current number).LeadsTo made)
      (trees : ∀ tree ∈ after.trees, tree ∈ before.trees ∨ tree = made)
      (clock : after.clock = made.clock) : ∃ made, before.Makes made after :=
    (sound.traces_of_leadsTo inside leads).elim fun version traces =>
      ⟨made, clock ▸ leads.clock, trees, leads.listsStored, clock ▸ version, traces⟩
  cases step with
  | create =>
    exact ⟨.empty before.clock, Nat.le_succ _, fun _ =>
      pushed, (Tree.empty_stored _).listsStored, Nat.lt_succ_self _, .inr (Nat.le_refl _)⟩
  | read parsed =>
    obtain ⟨leads, renews⟩ := Tree.leadsTo_of_parse parsed
    exact ⟨_, Nat.le_of_succ_le leads.clock, fun _ =>
      pushed, leads.listsStored, renews.2, .inr (Nat.le_of_succ_le renews.1)⟩
  | copy inside =>
    have member := tree_mem inside
    exact ⟨_, Nat.le_refl _, fun _ =>
      pushed, sound.listsStored _ member, sound.version _ member, traces_of_mem member⟩
  | assign hasTarget inside =>
    have member := tree_mem inside
    exact ⟨_, Nat.le_refl _, fun _ =>
      replaced, sound.listsStored _ member, sound.version _ member, traces_of_mem member⟩
  | edit inside operation fits =>
    have leads :=
      (@Tree.Operation.run_leads (before.current number) operation fits (sound.current inside)).1
    exact kept inside leads (fun _ => replaced) rfl
  | @offer number model settings refactoring ref action inside offered =>
    obtain ⟨-, leads, -⟩ :=
      @Context.offered_renews ⟨_, model, settings⟩ (sound.current inside) ref _ _ offered
    exact kept inside leads (fun _ => pushed) rfl

/-- A session stays sound. -/
theorem Makes.sound {made : Tree} (makes : before.Makes made after)
    (sound : before.Sound) : after.Sound := by
  have traced {old : Tree} (member : old ∈ before.trees)
      (same : old.version = made.version) : old.Same made := by
    obtain ⟨origin, isOld, version, isSame⟩ | later := makes.traces
    · exact (sound.same old member origin isOld (same.trans version.symm)).trans isSame
    · exact absurd (sound.version old member) (Nat.not_lt.2 (same ▸ later))
  refine ⟨fun tree member => ?_, fun tree member => ?_, fun left isLeft right isRight same => ?_⟩
  · rcases makes.trees tree member with isOld | rfl
    · exact Nat.lt_of_lt_of_le (sound.version tree isOld) makes.clock
    · exact makes.version
  · rcases makes.trees tree member with isOld | rfl
    · exact sound.listsStored tree isOld
    · exact makes.listsStored
  · rcases makes.trees left isLeft with leftOld | rfl <;>
      rcases makes.trees right isRight with rightOld | rfl
    · exact sound.same left leftOld right rightOld same
    · exact traced leftOld same
    · exact (traced rightOld same.symm).symm
    · exact .refl _

/-- A session that goes on stays sound, and all its trees can be traced back. -/
theorem GoesOn.sound (goesOn : session.GoesOn later) (sound : session.Sound) :
    later.Sound ∧ session.clock ≤ later.clock ∧ ∀ tree ∈ later.trees, session.Traces tree := by
  induction goesOn with
  | refl => exact ⟨sound, Nat.le_refl _, fun _ => traces_of_mem⟩
  | tail _ step ih =>
    obtain ⟨soundBefore, clock, traces⟩ := ih
    obtain ⟨number, step⟩ := step
    obtain ⟨made, makes⟩ := step.makes soundBefore
    refine ⟨makes.sound soundBefore, Nat.le_trans clock makes.clock, fun tree member => ?_⟩
    rcases makes.trees tree member with isOld | rfl
    · exact traces tree isOld
    · obtain ⟨origin, isOld, version, isSame⟩ | isNew := makes.traces
      · obtain ⟨first, isFirst, version', isSame'⟩ | isNew := traces origin isOld
        · exact .inl ⟨first, isFirst, version'.trans version, isSame'.trans isSame⟩
        · exact .inr (version ▸ isNew)
      · exact .inr (Nat.le_trans clock isNew)

theorem start_sound : start.Sound := ⟨nofun, nofun, nofun⟩

/-- A tree of a session is the same as any tree of its version that there is when the session has
gone on. -/
theorem GoesOn.same (goesOn : session.GoesOn later) (sound : session.Sound) {old new : Tree}
    (isOld : old ∈ session.trees) (isNew : new ∈ later.trees) (same : old.version = new.version) :
    old.Same new := by
  obtain ⟨-, -, traces⟩ := goesOn.sound sound
  obtain ⟨origin, isOrigin, version, isSame⟩ | isLater := traces new isNew
  · exact (sound.same old isOld origin isOrigin (same.trans version.symm)).trans isSame
  · exact absurd (sound.version old isOld) (Nat.not_lt.2 (same ▸ isLater))

/-- A step leaves all trees of other numbers as they are. -/
theorem Step.other_trees (step : Step before number after) {other : Nat} (apart : other ≠ number)
    (inside : other < before.trees.size) : after.tree other = before.tree other := by
  have pushed (made : Tree)
      (clock : Nat) : Session.tree ⟨before.trees.push made, clock⟩ other = before.tree other := by
    simp [Session.tree, Array.getElem?_push, Nat.ne_of_lt inside, Array.getElem?_eq_getElem inside]
  have replaced {place : Nat} (apart : other ≠ place) (made : Tree) (clock : Nat) :
      Session.tree ⟨before.trees.setIfInBounds place made, clock⟩ other = before.tree other := by
    simp [Session.tree, Ne.symm apart, Array.getElem?_eq_getElem inside]
  cases step with
  | create | read _ | copy _ | offer _ _ => exact pushed _ _
  | assign _ _ => exact replaced apart _ _
  | edit _ operation _ => exact replaced apart _ _

/-- Whatever the steps of a session, a tree is the same as every later tree of its version, and a
step changes no tree but one. An action gives its result for the trees of the version that it was
offered for, which are the same as its base, and refuses all others; its own result has a later
version, and no later version is accepted. -/
theorem versions_identify_trees (reached : start.GoesOn session) (goesOn : session.GoesOn later) :
    (∀ old ∈ session.trees, ∀ new ∈ later.trees, old.sameVersion new → old.Same new) ∧
    (∀ number after, Step later number after → ∀ other ≠ number, other < later.trees.size →
      after.tree other = later.tree other) ∧
    ∀ number < session.trees.size, ∀ model settings refactoring ref action,
      Context.offered? ⟨session.current number, model, settings⟩ refactoring ref
        = .ok (some action) → (∀ tree, action.apply tree = if tree.sameVersion (session.tree number)
          then .ok action.result else .error (.stale action.title)) ∧
        (∀ tree ∈ later.trees, ∀ result, action.apply tree = .ok result →
          (session.tree number).Same tree) ∧ (session.tree number).version < action.result.version ∧
        ∀ tree, (session.tree number).version < tree.version →
        action.apply tree = .error (.stale action.title) := by
  obtain ⟨sound, -⟩ := reached.sound start_sound
  refine ⟨fun old isOld new isNew same => goesOn.same sound isOld isNew (beq_iff_eq.1 same),
    fun number after step other apart inside => step.other_trees apart inside,
    fun number inside model settings refactoring ref action offered => ?_⟩
  obtain ⟨base, -, renews⟩ :=
    @Context.offered_renews ⟨_, model, settings⟩ (sound.current inside) ref _ _ offered
  replace base : action.base = (session.tree number).version := base
  have member := tree_mem inside
  refine ⟨fun tree => ?_, fun tree isTree result applied => ?_, ?_, fun tree later => ?_⟩
  · simp only [Action.apply, base, Tree.sameVersion, beq_iff_eq]
  · exact goesOn.same sound member isTree
      (base.symm.trans (Action.apply_eq_ok_iff.1 applied).1.symm)
  · exact Nat.lt_of_lt_of_le (sound.version _ member) renews.1
  · rw [Action.apply, if_neg fun same => Nat.ne_of_gt later (same.trans base)]

/-- A program is read, copied, and a list is added to the copy; the action for the program refuses
its result. -/
theorem inlining_is_stale_for_result : ∃ tree action,
    Tree.parse 0 "var a = x.F(); var b = a.G();" = .ok tree ∧
      (Context.ofTree tree {}).offered? .chainCalls (some 5) = .ok (some action) ∧
      tree.Same (Tree.allocList [some 0] tree).2 ∧
      action.apply (Tree.allocList [some 0] tree).2 = .ok action.result ∧
      action.apply action.result = .error (.stale action.title) := by
  have offers : ((Tree.parse 0 "var a = x.F(); var b = a.G();").toOption.any fun tree =>
      ((Context.ofTree tree {}).offered? .chainCalls (some 5)).toOption.any (·.isSome)) = true := by
    decide +kernel
  obtain ⟨tree, parsed, offers⟩ := (Option.any_eq_true _ _).1 offers
  obtain ⟨offered, isOffered, some⟩ := (Option.any_eq_true _ _).1 offers
  obtain ⟨action, rfl⟩ := Option.isSome_iff_exists.1 some
  replace parsed := Context.eq_ok_of_toOption parsed
  replace isOffered := Context.eq_ok_of_toOption isOffered
  have reached : start.GoesOn (ofTree tree) := .single ⟨_, .read parsed⟩
  have copied : (ofTree tree).Step 1 (copy 0 (ofTree tree)).2 := .copy Nat.one_pos
  have edited : (copy 0 (ofTree tree)).2.Step 1 _ :=
    .edit (Nat.lt_succ_self 1) (.allocList [Option.some 0]) trivial
  obtain ⟨same, -, stale⟩ :=
    versions_identify_trees reached (.tail (.single ⟨1, copied⟩) ⟨1, edited⟩)
  obtain ⟨applies, -, renewed, refuses⟩ :=
    stale 0 Nat.one_pos (Model.build tree) {} _ _ action isOffered
  have kept : (Tree.allocList [Option.some 0] tree).2.sameVersion tree := beq_iff_eq.2 rfl
  have isNew : (Tree.allocList [Option.some 0] tree).2 ∈
      (edit 1 (Tree.Operation.allocList [Option.some 0]).run (copy 0 (ofTree tree)).2).2.trees :=
    Array.mem_setIfInBounds (show 1 < #[tree, tree].size from Nat.lt_succ_self 1)
  exact ⟨tree, action, parsed, isOffered, same tree (Array.mem_singleton.2 rfl) _ isNew kept,
    (applies _).trans (if_pos kept), refuses _ renewed⟩

end Session

end Refactory
