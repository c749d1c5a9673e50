import Refactory.Proofs.Tree.Types

/-!
# Versions

Every edit of a tree whose lists lie in the list store leads to such a tree, and either changes
nothing that can be seen of the nodes and keeps the version, or takes a version from the clock
(`Tree.LeadsTo`). Only a new list, and a place that is not found, leave the version as it is.
Whatever puts a list into a node must have found the list there or added it, which is what the edits
are shown to do (`Edit.Leads`).
-/
namespace Refactory

variable {kind : NodeKind}

namespace Tree

/-- Every entry of a list at a child position is in the list store. -/
def HasEntries (tree : Tree) : NodeSlot → Prop
  | .one _ => True
  | .many range => ∀ entry ∈ range.entries, entry < tree.lists.size

/-- Every list of a kind lies in the list store. -/
def HasLists (tree : Tree) (kind : NodeKind) : Prop := ∀ slot ∈ kind.slots, tree.HasEntries slot

/-- The lists of all nodes lie in the list store. -/
def ListsStored (tree : Tree) : Prop := ∀ ref, tree.HasLists (tree.kind ref)

/-- Where all lies in the stores, the lists of all nodes do. -/
theorem Stored.listsStored {tree : Tree} (stored : tree.Stored) : tree.ListsStored := by
  intro ref slot member
  rcases slot with _ | range
  · trivial
  · cases ref with
    | none => cases member
    | some number =>
      cases found : tree.nodes[number]? with
      | none => simp [Tree.kind, node, found, Node.missing] at member
      | some here =>
        simp only [Tree.kind, node, found, Option.getD_some] at member
        have inside : range.start + range.length ≤ tree.lists.size :=
          stored.slots here (Array.mem_of_getElem? found) _ member
        intro entry isEntry
        have bound := (List.mem_range'_1.1 isEntry).2
        omega

/-- Two trees have the same root, and each reference has the same node, parent and children in
both. -/
structure Same (left right : Tree) : Prop where
  /-- The roots are the same. -/
  root : left.root = right.root
  /-- The nodes are the same, with their spans. -/
  node : ∀ ref, left.node ref = right.node ref
  /-- The parents are the same. -/
  parent : ∀ ref, left.parent ref = right.parent ref
  /-- The children are the same. -/
  children : ∀ ref, left.children ref = right.children ref

/-- A tree has a version that the clock of an earlier tree gave or was to give. -/
def Renews (before after : Tree) : Prop :=
    before.clock ≤ after.version ∧ after.version < after.clock

/-- After an edit all lists lie in the list store, and either the tree is the same and has the same
version, or it has taken a new one. -/
structure LeadsTo (before after : Tree) : Prop where
  /-- The clock does not go back. -/
  clock : before.clock ≤ after.clock
  /-- No node is lost. -/
  size : before.size ≤ after.size
  /-- No list is lost. -/
  lists : before.lists.size ≤ after.lists.size
  /-- The lists lie in the list store. -/
  listsStored : after.ListsStored
  /-- What has changed has a new version. -/
  version : after.version = before.version ∧ before.Same after ∨ before.Renews after

section

variable {before middle after tree : Tree}

namespace Same

@[refl] theorem refl (tree : Tree) : tree.Same tree :=
    ⟨rfl, fun _ => rfl, fun _ => rfl, fun _ => rfl⟩

theorem symm (same : before.Same after) : after.Same before :=
  ⟨same.root.symm, fun ref => (same.node ref).symm, fun ref => (same.parent ref).symm,
    fun ref => (same.children ref).symm⟩

theorem trans (first : before.Same middle) (second : middle.Same after) : before.Same after :=
  ⟨first.root.trans second.root, fun ref => (first.node ref).trans (second.node ref), fun ref =>
    (first.parent ref).trans (second.parent ref), fun ref =>
    (first.children ref).trans (second.children ref)⟩

end Same

/-- The entries of a list are in a larger list store. -/
theorem HasEntries.mono {slot : NodeSlot} (has : before.HasEntries slot)
    (lists : before.lists.size ≤ after.lists.size) :
    after.HasEntries slot := by
  cases slot with
  | one _ => trivial
  | many range => exact fun entry inside => Nat.lt_of_lt_of_le (has entry inside) lists

theorem HasLists.mono (has : before.HasLists kind) (lists : before.lists.size ≤ after.lists.size) :
    after.HasLists kind := fun slot inside => (has slot inside).mono lists

/-- A kind has its lists in the list store if they come from child positions that have. -/
theorem HasLists.withSlots {slots : List NodeSlot}
    (alike : List.Forall₂ Slot.Alike kind.slots slots)
    (has : ∀ slot ∈ slots, tree.HasEntries slot) :
    tree.HasLists (kind.withSlots none .empty slots) := by
  intro slot inside
  rw [Kind.slots_withSlots _ alike] at inside
  exact has slot inside

/-- A child position has the children that it had before lists were added. -/
theorem slotChildren_of_longer {slot : NodeSlot} (has : before.HasEntries slot)
    (lists : before.lists.toList <+: after.lists.toList) :
    after.slotChildren slot = before.slotChildren slot := by
  cases slot with
  | one child => cases child <;> rfl
  | many range =>
    by_cases isEmpty : range.length = 0
    · simp [slotChildren, items, isEmpty]
    · have last : range.start + (range.length - 1) < before.lists.size :=
        has _ (List.mem_range'_1.2 ⟨by omega, by omega⟩)
      exact items_of_longer lists (show range.start + range.length ≤ before.lists.size by omega)

namespace LeadsTo

theorem refl (listsStored : tree.ListsStored) : tree.LeadsTo tree :=
  ⟨Nat.le_refl _, Nat.le_refl _, Nat.le_refl _, listsStored, .inl ⟨rfl, .refl tree⟩⟩

/-- A version that is new after a first edit was taken from a clock that had not gone back. -/
theorem renews (first : before.LeadsTo middle)
    (second : middle.Renews after) : before.Renews after :=
  ⟨Nat.le_trans first.clock second.1, second.2⟩

/-- A new version stays new. -/
theorem keeps_renews (second : middle.LeadsTo after) (first : before.Renews middle)
    (clock : before.clock ≤ middle.clock) :
    before.Renews after := by
  obtain ⟨same, -⟩ | renews := second.version
  · exact ⟨same ▸ first.1, same ▸ Nat.lt_of_lt_of_le first.2 second.clock⟩
  · exact ⟨Nat.le_trans clock renews.1, renews.2⟩

theorem trans (first : before.LeadsTo middle) (second : middle.LeadsTo after) :
    before.LeadsTo after where
  clock := Nat.le_trans first.clock second.clock
  size := Nat.le_trans first.size second.size
  lists := Nat.le_trans first.lists second.lists
  listsStored := second.listsStored
  version := by
    obtain ⟨version, same⟩ | renews := first.version
    · obtain ⟨version', same'⟩ | renews' := second.version
      · exact .inl ⟨version'.trans version, same.trans same'⟩
      · exact .inr (first.renews renews')
    · exact .inr (second.keeps_renews renews first.clock)

end LeadsTo

/-- The lists lie in the list store where every node but those of one kind was there before. -/
theorem listsStored_of_kinds (stored : before.ListsStored) (has : before.HasLists kind)
    (lists : after.lists = before.lists)
    (kinds : ∀ ref, after.kind ref = before.kind ref ∨ after.kind ref = kind) :
    after.ListsStored := by
  intro ref
  have larger : before.lists.size ≤ after.lists.size :=
    Nat.le_of_eq (congrArg Array.size lists.symm)
  rcases kinds ref with same | isNew
  · exact same ▸ (stored ref).mono larger
  · exact isNew ▸ has.mono larger

/-- A changed tree that takes a version from the clock has taken a new one. -/
theorem touch_leadsTo (clock : after.clock = before.clock) (size : before.size ≤ after.size)
    (lists : after.lists = before.lists) (listsStored : after.ListsStored) :
    before.LeadsTo after.touch ∧ before.Renews after.touch := by
  have renews : before.Renews after.touch := ⟨Nat.le_of_eq clock.symm, Nat.lt_succ_self _⟩
  refine ⟨⟨?_, size, Nat.le_of_eq (congrArg Array.size lists.symm), listsStored, .inr renews⟩,
    renews⟩
  exact Nat.le_trans (Nat.le_of_eq clock.symm) (Nat.le_succ _)

end

end Tree

instance : Keeping Tree.ListsStored Tree.LeadsTo := ⟨.refl, .trans, fun leads => leads.listsStored⟩

/-- An edit of a tree whose lists lie in the list store leads to such a tree, and its result is as
said. -/
abbrev Edit.Leads {α : Type} (edit : Edit α) := Edit.Keeps Tree.ListsStored Tree.LeadsTo edit

/-- What becomes of a child position is one of the same sort, and its list lies in the list
store. -/
def Tree.FillsSlot (tree : Tree) (slot slot' : NodeSlot) : Prop :=
    Slot.Alike slot slot' ∧ tree.HasEntries slot'

namespace Tree

variable {tree : Tree}

theorem FillsSlot.mono {before after : Tree} {slot slot' : NodeSlot}
    (fills : before.FillsSlot slot slot')
    (leads : before.LeadsTo after) : after.FillsSlot slot slot' :=
    ⟨fills.1, fills.2.mono leads.lists⟩

/-- A kind with filled child positions has its lists in the list store. -/
theorem HasLists.of_fills {slots : List NodeSlot}
    (fills : List.Forall₂ tree.FillsSlot kind.slots slots) :
    tree.HasLists (kind.withSlots none .empty slots) := by
  refine .withSlots (fills.imp fun _ _ fills => fills.1) fun slot' inside => ?_
  obtain ⟨_, -, fills⟩ := exists_of_mem_right fills inside
  exact fills.2

/-- Adding a node takes a new version. -/
theorem alloc_leads (has : tree.HasLists kind) (span : Span) :
    Edit.Leads (alloc kind span) tree fun _ after => tree.Renews after := by
  intro stored
  refine touch_leadsTo (by simp) (by simp [size]) (by simp)
    (listsStored_of_kinds stored has (by simp) fun ref => ?_)
  cases ref with
  | none => exact .inl rfl
  | some number =>
    rw [Tree.kind, Tree.kind, node, node, adopt_nodes, Array.getElem?_push]
    split
    · exact .inr rfl
    · exact .inl rfl

/-- Adding a list changes nothing but the list store, so it needs no new version. -/
theorem allocList_leads (refs : List Ref) :
    Edit.Leads (allocList refs) tree fun range after => after.HasEntries (.many range) := by
  intro stored
  have longer : tree.lists.size ≤ (allocList refs tree).2.lists.size := by simp [allocList]
  have same : tree.Same (allocList refs tree).2 := by
    refine ⟨rfl, fun _ => rfl, fun _ => rfl, fun ref =>
      (List.flatMap_congr fun slot inside => ?_).symm⟩
    exact slotChildren_of_longer (stored ref slot inside) (by simp [allocList])
  refine ⟨⟨Nat.le_refl _, Nat.le_refl _, longer, fun ref =>
    (stored ref).mono longer, .inl ⟨rfl, same⟩⟩, fun entry inside => ?_⟩
  have := (List.mem_range'_1.1 inside).2
  simpa [allocList] using this

/-- Giving a stored node another kind takes a new version. -/
theorem setKind_leads {ref : Ref} {kind : NodeKind} (has : tree.HasLists kind) :
    Edit.Leads (setKind ref kind) tree fun _ after => tree.HasRef ref → tree.Renews after := by
  intro stored
  cases ref with
  | none => exact ⟨.refl stored, fun hasRef => absurd rfl hasRef.ne_none⟩
  | some number =>
    rw [setKind]
    simp only
    split
    · rename_i inside
      refine (touch_leadsTo (by simp) (by simp [size]) (by simp)
        (listsStored_of_kinds stored has (by simp) fun ref => ?_)).imp_right fun renews _ => renews
      cases ref with
      | none => exact .inl rfl
      | some place =>
        rw [Tree.kind, Tree.kind, node, node, adopt_nodes, Array.getElem?_set]
        split
        · exact .inr rfl
        · exact .inl rfl
    · rename_i outside
      refine ⟨.refl stored, fun hasRef => absurd ?_ outside⟩
      obtain ⟨_, inside, same⟩ := hasRef
      exact Option.some.inj same ▸ inside

/-- Making a node the root takes a new version, whatever was the root. -/
theorem setRoot_leads
    (root : Ref) : Edit.Leads (setRoot root) tree fun _ after => tree.Renews after := by
  intro stored
  refine touch_leadsTo (by simp) (by simp [size]) (by simp)
    (listsStored_of_kinds stored (stored none) (by simp) fun ref => .inl ?_)
  cases ref <;> simp [Tree.kind, node]

/-- After a new version was taken, a link to a parent may still be set. -/
theorem LeadsTo.setParent {after : Tree} (leads : tree.LeadsTo after) (renews : tree.Renews after)
    (ref parent : Ref) :
    tree.LeadsTo (after.setParent ref parent) ∧ tree.Renews (after.setParent ref parent) := by
  have renews : tree.Renews (after.setParent ref parent) := by simpa [Renews] using renews
  refine ⟨⟨by simpa using leads.clock, by simpa using leads.size, by simpa using leads.lists, ?_,
    .inr renews⟩, renews⟩
  refine listsStored_of_kinds leads.listsStored (leads.listsStored none) (by simp)
    fun ref => .inl ?_
  cases ref <;> simp [Tree.kind, node]

/-- A child position that is edited gets a list that was added. -/
theorem substituteSlot_leads (target : Ref) (replacements : List Ref) (listsOnly : Bool)
    (slot : NodeSlot) :
    Edit.Leads (substituteSlot target replacements listsOnly slot) tree fun result after =>
      ∀ slot' ∈ result, after.FillsSlot slot slot' := by
  intro stored
  unfold substituteSlot
  split
  · split
    · refine ⟨.refl stored, fun slot' found => ?_⟩
      simp only [Option.mem_ite_none_right, Bool.and_eq_true] at found
      obtain rfl := Option.mem_some_iff.1 found.2
      exact ⟨.one, trivial⟩
    · exact ⟨.refl stored, fun _ found => absurd found (Option.not_mem_none _)⟩
  · simp only
    split
    · obtain ⟨leads, has⟩ :=
        allocList_leads (substitute target replacements (tree.items ‹Range›)) stored
      refine ⟨leads, fun slot' found => ?_⟩
      obtain rfl := Option.mem_some_iff.1 found
      exact ⟨.many, has⟩
    · exact ⟨.refl stored, fun _ found => absurd found (Option.not_mem_none _)⟩

/-- Putting nodes in the place of a child takes a new version where the child is found. -/
theorem editChild_leads (parent target : Ref) (replacements : List Ref) (listsOnly : Bool) :
    Edit.Leads (editChild parent target replacements listsOnly) tree
      fun found after => found = true → tree.Renews after := by
  intro stored
  let post (after : Tree) (slot : NodeSlot) (result : NodeSlot × Option NodeSlot) : Prop :=
    after.FillsSlot slot (result.2.getD result.1)
  have tries : Edit.Leads ((tree.kind parent).slots.mapM (tried target replacements listsOnly)) tree
      fun results after => List.Forall₂ (post after) (tree.kind parent).slots results := by
    refine .mapM (fun before after slot result leads posted => posted.mono leads)
      fun slot inside middle leads => ?_
    refine (substituteSlot_leads target replacements listsOnly slot).bind
      fun result after leads' fills => .pure ?_
    cases result with
    | none => exact
      ⟨by cases slot <;> constructor, (stored parent slot inside).mono (leads.trans leads').lists⟩
    | some slot' => exact fills slot' rfl
  obtain ⟨leads, edits⟩ := tries stored
  cases ran : (tree.kind parent).slots.mapM (tried target replacements listsOnly) tree with
  | mk results middle =>
    rw [ran] at leads edits
    by_cases found : ∃ result ∈ results, result.2.isSome
    · rw [editChild_eq ran found]
      have isStored : tree.HasRef parent := by
        refine hasRef_of_kind_ne fun isNull => ?_
        rw [isNull] at edits
        obtain rfl := List.forall₂_nil_left_iff.1 edits
        obtain ⟨_, inside, -⟩ := found
        cases inside
      have fills : List.Forall₂ middle.FillsSlot (tree.kind parent).slots
          (results.map fun tried => tried.2.getD tried.1) := List.forall₂_map_right_iff.2 edits
      obtain ⟨leads', renews⟩ :=
        @setKind_leads middle parent _ (HasLists.of_fills fills) leads.listsStored
      have renews := leads.renews (renews (isStored.mono leads.size))
      have leads := leads.trans leads'
      have relinked := leads.setParent renews target none
      rw [dropLink]
      split
      · exact ⟨leads, fun _ => renews⟩
      · exact relinked.imp_right fun renews _ => renews
    · rw [editChild_eq_false ran found]
      exact ⟨leads, fun found => absurd found Bool.false_ne_true⟩

theorem replaceChild_leads (parent target replacement : Ref) :
    Edit.Leads (replaceChild parent target replacement) tree fun found after =>
    found = true → tree.Renews after :=
  editChild_leads parent target [replacement] false

theorem spliceChild_leads (parent target : Ref) (replacements : List Ref) :
    Edit.Leads (spliceChild parent target replacements) tree fun found after =>
    found = true → tree.Renews after :=
  editChild_leads parent target replacements true

/-- Putting a node in the place of another takes a new version where the other has a place. -/
theorem replace_leads (target replacement : Ref) :
    Edit.Leads (replace target replacement) tree fun found after =>
    found = true → tree.Renews after := by
  rw [replace]
  refine .get_bind ?_
  split
  · exact (setRoot_leads replacement).bind fun _ _ _ renews => .pure fun _ => renews
  · split
    · exact .pure fun found => absurd found Bool.false_ne_true
    · exact replaceChild_leads _ target replacement

/-- A copied child position has its list among the lists that were added. -/
theorem duplicateSlot_leads {copy : Ref → Edit Ref}
    (copies : ∀ ref tree, Edit.Leads (copy ref) tree fun _ _ => True) (slot : NodeSlot) :
    Edit.Leads (duplicateSlot copy slot) tree fun slot' after => after.FillsSlot slot slot' := by
  unfold duplicateSlot
  split
  · exact .pure ⟨.one, trivial⟩
  · exact (copies _ tree).bind fun _ _ _ _ => .pure ⟨.one, trivial⟩
  · refine .get_bind (.bind (.each fun ref middle => copies ref middle) fun results _ _ _ => ?_)
    exact (allocList_leads results).bind fun range _ _ has => .pure ⟨.many, has⟩

theorem duplicateWithin_leads (bound : Nat) (ref : Ref) :
    Edit.Leads (duplicateWithin bound ref) tree fun _ _ => True := by
  induction bound generalizing ref tree with
  | zero => exact .pure trivial
  | succ bound ih =>
    rw [duplicateWithin]
    refine .get_bind (.bind
      (.mapM (fun before after slot slot' leads fills => fills.mono leads) fun slot _ middle _ =>
      duplicateSlot_leads (fun ref tree => ih ref) slot) fun slots middle _ fills => ?_)
    exact (alloc_leads (.of_fills fills) _).mono fun _ _ _ _ => trivial

/-- A copy takes new versions. -/
theorem duplicate_leads (ref : Ref) : Edit.Leads (duplicate ref) tree fun _ _ => True := by
  rw [duplicate]
  exact .get_bind (duplicateWithin_leads _ ref)

/-- The tree of a source text has its lists in its list store and a version from the clock. -/
theorem leadsTo_of_parse {clock : Nat} {source : String} {tree : Tree}
    (parsed : Tree.parse clock source = .ok tree) :
    (Tree.empty clock).LeadsTo tree ∧ (Tree.empty clock).Renews tree := by
  have stored : tree.Stored := by
    obtain ⟨term, outline, -, program, -⟩ := exists_isProgram_of_parse parsed
    exact program.stored
  rw [Tree.parse_eq] at parsed
  cases read : SourceTerm.parse source with
  | error failure => simp [read] at parsed
  | ok term =>
    rw [read] at parsed
    obtain rfl := Except.ok.inj parsed
    obtain ⟨outline, adds, -⟩ := exists_store term (empty_stored clock)
    have renews : (Tree.empty clock).Renews (ofTerm clock term) := by
      refine ⟨?_, Nat.lt_succ_self _⟩
      have version : (ofTerm clock term).version = (store term (Tree.empty clock)).2.clock :=
        setParent_clock ..
      exact version ▸ adds.clock
    have later := Nat.le_of_lt (Nat.lt_of_le_of_lt renews.1 renews.2)
    exact ⟨⟨later, Nat.zero_le _, Nat.zero_le _, stored.listsStored, .inr renews⟩, renews⟩

end Tree

/-- An edit leads from any tree whose lists lie in the list store to another one. -/
def Edit.Advances {α : Type} (edit : Edit α) : Prop := ∀ tree, Edit.Leads edit tree fun _ _ => True

namespace Edit.Advances

variable {α β : Type}

theorem pure (value : α) : Edit.Advances (Pure.pure value) := fun _ => .pure trivial

theorem bind {edit : Edit α} {next : α → Edit β} (first : edit.Advances)
    (others : ∀ value, (next value).Advances) :
    Edit.Advances (edit >>= next) :=
    fun tree => (first tree).bind fun value after _ _ => others value after

theorem get_bind {next : Tree → Edit β} (advances : ∀ tree, (next tree).Advances) :
    Edit.Advances (MonadState.get >>= next) := fun tree => .get_bind (advances tree tree)

theorem mapM {edit : α → Edit β} (items : List α) (advances : ∀ item, (edit item).Advances) :
    Edit.Advances (items.mapM edit) := fun _ => .each advances

end Edit.Advances

namespace Tree

variable {tree : Tree}

/-- A counted edit leads to a tree whose lists lie in the list store, whatever the count. -/
abbrev Counted.Leads {α : Type} (edit : Counted α) := Counted.Keeps ListsStored LeadsTo edit

/-- A visited child position keeps its list or gets one that was added. -/
theorem visitSlot_leads {visit : Ref → Counted Ref}
    (visits : ∀ ref tree, Counted.Leads (visit ref) tree fun _ _ => True)
    {slot : NodeSlot} (has : tree.HasEntries slot) :
    Counted.Leads (visitSlot visit slot) tree fun slot' after => after.FillsSlot slot slot' := by
  unfold visitSlot
  split
  · exact .pure ⟨.one, trivial⟩
  · exact (visits _ tree).bind fun _ _ _ _ => .pure ⟨.one, trivial⟩
  · refine .get_bind (.bind (.mapM (fun _ _ _ _ _ => id) fun ref _ middle _ => visits ref middle)
      fun results middle leads _ => ?_)
    split
    · exact .pure ⟨.many, has.mono leads.lists⟩
    · exact (Counted.Keeps.lift (allocList_leads results)).bind fun range _ _ has =>
        .pure ⟨.many, has⟩

theorem rebuild_leads {visit : Ref → Counted Ref}
    (visits : ∀ ref tree, Counted.Leads (visit ref) tree fun _ _ => True)
    (ref : Ref) : Counted.Leads (rebuild visit ref) tree fun _ _ => True := by
  rw [rebuild]
  refine .given fun stored =>
    .get_bind (.bind (.mapM (fun before after slot slot' leads fills => fills.mono leads)
    fun slot inside middle leads =>
    visitSlot_leads visits ((stored ref slot inside).mono leads.lists))
    fun slots middle _ fills => ?_)
  split
  · exact .pure trivial
  · exact .lift ((alloc_leads (.of_fills fills) _).mono fun _ _ _ _ => trivial)

theorem foldWithin_leads {rule : Rule} (advances : ∀ count ref, (rule count ref).Advances)
    (bound : Nat) (ref : Ref) :
    Counted.Leads (foldWithin rule bound ref) tree fun _ _ => True := by
  induction bound generalizing ref tree with
  | zero => exact .pure trivial
  | succ bound ih =>
    rw [foldWithin]
    refine .count_bind fun count =>
      (Counted.Keeps.lift (advances count ref tree)).bind fun verdict middle _ _ => ?_
    split
    · exact rebuild_leads (fun ref tree => ih ref) ref
    · exact fun _ => .pure trivial
    · exact ih _

/-- A fold takes versions as its rule does. -/
theorem fold_advances {rule : Rule} (advances : ∀ count ref, (rule count ref).Advances)
    (ref : Ref) :
    (fold rule ref).Advances := by
  intro tree
  rw [fold]
  exact .get_bind (foldWithin_leads advances _ ref 0)

theorem duplicate_advances (ref : Ref) : (duplicate ref).Advances := fun _ => duplicate_leads ref

end Tree

end Refactory
