import Refactory.Proofs.Tree.Folding
import Refactory.Proofs.Tree.Keeping

/-!
# Types stay types

In a tree with formed types, declarations have types for their types, and types have types for their
arguments (`Tree.TypesFormed`). An edit keeps that where it does not make another node of a type
(`Edit.KeepsTypes`). Copying keeps it, and so does a fold whose rule leaves types to be rebuilt.
-/
namespace Refactory

variable {kind : NodeKind} {target : Ref}

/-- The kind of a type. -/
def Kind.isType {one many : Type} : Kind one many → Bool
  | .typeRef _ _ _ => true
  | _ => false

@[simp] theorem Kind.isType_withSlots {one many one' many' : Type}
    (kind : Kind one many) (absent : one') (empty : many') (slots : List (Slot one' many')) :
    (kind.withSlots absent empty slots).isType = kind.isType := by
  cases kind <;> rfl

/-- What is on the right of related lists is related to something on the left. -/
theorem exists_of_mem_right {α β : Type} {related : α → β → Prop} {left : List α} {right : List β}
    (all : List.Forall₂ related left right) {there : β}
    (member : there ∈ right) : ∃ here ∈ left, related here there := by
  induction all with
  | nil => cases member
  | cons first _ ih =>
    rcases List.mem_cons.1 member with rfl | member
    · exact ⟨_, .head _, first⟩
    · obtain ⟨here, inside, related⟩ := ih member
      exact ⟨here, .tail _ inside, related⟩

namespace Tree

/-- A node is a type. -/
def IsType (tree : Tree) (ref : Ref) : Prop := (tree.kind ref).isType

/-- A stored node is no type. -/
def IsOther (tree : Tree) (ref : Ref) : Prop := tree.HasRef ref ∧ ¬tree.IsType ref

/-- What is at a child position is types, and it is stored. -/
def HoldsTypes (tree : Tree) : NodeSlot → Prop
  | .one ref => ref ≠ none → tree.IsType ref
  | .many range => tree.HasSlot (.many range) ∧ ∀ ref ∈ tree.items range, tree.IsType ref

/-- A declaration has a type for its type, and a type has types for its arguments. -/
def FitsTypes (tree : Tree) : NodeKind → Prop
  | .localDecl type _ => tree.HoldsTypes (.one type)
  | .typeRef _ arguments _ => tree.HoldsTypes (.many arguments)
  | _ => True

/-- The types of all declarations and the arguments of all types are types. -/
def TypesFormed (tree : Tree) : Prop := ∀ ref, tree.FitsTypes (tree.kind ref)

/-- After an edit the types are formed, and of the nodes that were there before the same are
types. -/
structure KeepsTypes (before after : Tree) : Prop where
  /-- No node is lost. -/
  size : before.size ≤ after.size
  /-- No list is lost. -/
  lists : before.lists.toList <+: after.lists.toList
  /-- The nodes that were types are types, and no others. -/
  isType : ∀ ref, before.HasRef ref → (after.IsType ref ↔ before.IsType ref)
  /-- The types are formed. -/
  formed : after.TypesFormed

section

variable {before middle after tree : Tree} {ref : Ref}

/-- A node of another kind than null is stored. -/
theorem hasRef_of_kind_ne (other : tree.kind ref ≠ .null) : tree.HasRef ref := by
  cases ref with
  | none => exact absurd rfl other
  | some number =>
    refine ⟨number, ?_, rfl⟩
    by_contra outside
    refine other ?_
    rw [kind, node, Array.getElem?_eq_none (Nat.le_of_not_lt outside)]
    rfl

/-- A type is a stored node. -/
theorem IsType.hasRef (isType : tree.IsType ref) : tree.HasRef ref :=
  hasRef_of_kind_ne fun isNull => by simp [IsType, isNull, Kind.isType] at isType

theorem IsType.exists_kind (isType : tree.IsType ref) :
    ∃ name arguments rank, tree.kind ref = .typeRef name arguments rank := by
  rw [IsType] at isType
  cases isKind : tree.kind ref <;> rw [isKind] at isType <;>
    first | exact ⟨_, _, _, rfl⟩ | cases isType

/-- A node is a type where a type is shown. -/
theorem Shows.isType_iff {term : Outline}
    (shows : tree.Shows term) : tree.IsType term.ref ↔ term.kind.isType := by
  have skeleton (form : Term.Form Place) : form.skeleton.isType = form.isType :=
    Kind.isType_withSlots ..
  rw [IsType, ← skeleton, ← shows.depicts.skeleton, Kind.skeleton, Kind.isType_withSlots]

/-- A node of a kind that is neither null nor that of a type. -/
theorem isOther_of_kind (isKind : tree.kind ref = kind) (isStored : kind ≠ .null)
    (noType : kind.isType = false) : tree.IsOther ref :=
  ⟨hasRef_of_kind_ne (isKind ▸ isStored), by rw [IsType, isKind, noType]; exact Bool.false_ne_true⟩

namespace KeepsTypes

theorem refl (formed : tree.TypesFormed) : KeepsTypes tree tree :=
    ⟨Nat.le_refl _, List.prefix_rfl, fun _ _ => .rfl, formed⟩

theorem trans (first : KeepsTypes before middle) (second : KeepsTypes middle after) :
    KeepsTypes before after where
  size := Nat.le_trans first.size second.size
  lists := first.lists.trans second.lists
  isType ref hasRef := (second.isType ref (hasRef.mono first.size)).trans (first.isType ref hasRef)
  formed := second.formed

theorem isType_of (keeps : KeepsTypes before after)
    (isType : before.IsType ref) : after.IsType ref :=
  (keeps.isType ref isType.hasRef).2 isType

theorem isOther_of (keeps : KeepsTypes before after)
    (isOther : before.IsOther ref) : after.IsOther ref :=
  ⟨isOther.1.mono keeps.size, fun isType => isOther.2 ((keeps.isType ref isOther.1).1 isType)⟩

end KeepsTypes

/-- Types at a child position are there in a larger tree in which the same nodes are types. -/
theorem HoldsTypes.mono {slot : NodeSlot} (holds : before.HoldsTypes slot)
    (lists : before.lists.toList <+: after.lists.toList)
    (isType : ∀ ref, before.IsType ref → after.IsType ref) :
    after.HoldsTypes slot := by
  cases slot with
  | one ref => exact fun present => isType ref (holds present)
  | many range =>
    obtain ⟨inside, types⟩ := holds
    refine ⟨Nat.le_trans inside (by simpa using lists.length_le), fun ref member =>
      isType ref (types ref ?_)⟩
    rwa [items_of_longer lists inside] at member

theorem FitsTypes.mono (fits : before.FitsTypes kind)
    (lists : before.lists.toList <+: after.lists.toList)
    (isType : ∀ ref, before.IsType ref → after.IsType ref) :
    after.FitsTypes kind := by
  cases kind
  case localDecl type declarators =>
    exact (show before.HoldsTypes (.one type) from fits).mono lists isType
  case typeRef name arguments rank =>
    exact (show before.HoldsTypes (.many arguments) from fits).mono lists isType
  all_goals trivial

theorem HoldsTypes.of_keeps {slot : NodeSlot} (holds : before.HoldsTypes slot)
    (keeps : KeepsTypes before after) :
    after.HoldsTypes slot := holds.mono keeps.lists fun _ => keeps.isType_of

/-- A kind has types for its types if it had them before and each child position that held types
holds types. -/
theorem FitsTypes.withSlots {slots : List NodeSlot} (fits : before.FitsTypes kind)
    (types : List.Forall₂
      (fun slot slot' => Slot.Alike slot slot' ∧ (before.HoldsTypes slot → after.HoldsTypes slot'))
      kind.slots slots) : after.FitsTypes (kind.withSlots none .empty slots) := by
  cases kind
  case localDecl type declarators =>
    obtain ⟨first, _, ⟨alike, holds⟩, -, rfl⟩ := List.forall₂_cons_left_iff.1 types
    obtain ⟨type', rfl⟩ := Slot.alike_one_iff.1 alike
    exact holds fits
  case typeRef name arguments rank =>
    obtain ⟨first, _, ⟨alike, holds⟩, -, rfl⟩ := List.forall₂_cons_left_iff.1 types
    obtain ⟨arguments', rfl⟩ := Slot.alike_many_iff.1 alike
    exact holds fits
  all_goals trivial

/-- What changes no node and loses no list keeps the types. -/
theorem keepsTypes_of_nodes (formed : before.TypesFormed) (nodes : after.nodes = before.nodes)
    (lists : before.lists.toList <+: after.lists.toList) : KeepsTypes before after := by
  have kinds (ref : Ref) : after.kind ref = before.kind ref := by
    cases ref <;> simp [kind, node, nodes]
  have types (ref : Ref) : after.IsType ref ↔ before.IsType ref := by rw [IsType, IsType, kinds]
  refine ⟨Nat.le_of_eq (by rw [size, size, nodes]), lists, fun ref _ => types ref, fun ref => ?_⟩
  rw [kinds]
  exact (formed ref).mono lists fun ref => (types ref).2

end

end Tree

instance : Keeping Tree.TypesFormed Tree.KeepsTypes := ⟨.refl, .trans, fun keeps => keeps.formed⟩

/-- An edit keeps the types of a tree, and its result is as said. -/
abbrev Edit.KeepsTypes {α : Type} (edit : Edit α) :=
    Edit.Keeps Tree.TypesFormed Tree.KeepsTypes edit

namespace Tree

variable {tree : Tree}

/-- Adding a node that has types for its types keeps the types. -/
theorem alloc_keepsTypes (fits : tree.FitsTypes kind) (span : Span) :
    Edit.KeepsTypes (alloc kind span) tree fun ref after =>
    after.HasRef ref ∧ (after.IsType ref ↔ kind.isType) := by
  intro formed
  set after := (alloc kind span tree).2 with isAfter
  have nodes : after.nodes = tree.nodes.push ⟨kind, span⟩ := by
    rw [isAfter, alloc, touch_nodes, adopt_nodes]
  have lists : after.lists = tree.lists := by rw [isAfter, alloc, touch_lists, adopt_lists]
  have same {ref : Ref} (other : ref ≠ some tree.size) : after.kind ref = tree.kind ref := by
    cases ref with
    | none => rfl
    | some number =>
      have apart : number ≠ tree.nodes.size := fun same => other (congrArg some same)
      rw [Tree.kind, Tree.kind, node, node, nodes, Array.getElem?_push, if_neg apart]
  have here : after.kind (some tree.size) = kind := by simp [Tree.kind, node, nodes, size]
  have types (ref : Ref) (hasRef : tree.HasRef ref) : after.IsType ref ↔ tree.IsType ref := by
    have other : ref ≠ some tree.size := fun isNew => not_hasRef_size (isNew ▸ hasRef)
    rw [IsType, IsType, same other]
  have isType (ref : Ref) (isType : tree.IsType ref) : after.IsType ref :=
    (types ref isType.hasRef).2 isType
  have prefixed : tree.lists.toList <+: after.lists.toList := by simp [lists]
  refine ⟨⟨by simp [size, nodes], prefixed, types, fun ref => ?_⟩,
    ⟨tree.size, by simp [size, nodes], rfl⟩, ?_⟩
  · by_cases isNew : ref = some tree.size
    · rw [isNew, here]
      exact fits.mono prefixed isType
    · rw [same isNew]
      exact (formed ref).mono prefixed isType
  · change (after.kind (some tree.size)).isType ↔ _
    rw [here]

/-- Adding a node of a kind that is not that of a type. -/
theorem alloc_isOther {span : Span} (fits : tree.FitsTypes kind) (noType : kind.isType = false) :
    Edit.KeepsTypes (alloc kind span) tree fun ref after => after.IsOther ref :=
  (alloc_keepsTypes fits span).mono fun _ _ _ isNew =>
    ⟨isNew.1, fun isType => Bool.false_ne_true (noType ▸ isNew.2.1 isType)⟩

/-- Giving a node a kind with types for its types keeps the types where it makes no type of another
node and no other node of a type. -/
theorem setKind_keepsTypes {ref : Ref} (fits : tree.FitsTypes kind)
    (same : kind.isType = (tree.kind ref).isType) :
    Edit.KeepsTypes (setKind ref kind) tree fun _ _ => True := by
  intro formed
  refine ⟨?_, trivial⟩
  cases ref with
  | none => exact .refl formed
  | some number =>
    rw [setKind]
    simp only
    split
    · rename_i inside
      set after :=
        (({ tree with nodes := tree.nodes.set number ⟨kind, tree.nodes[number].span⟩ } : Tree).adopt
        (some number) kind).touch with isAfter
      have nodes : after.nodes = tree.nodes.set number ⟨kind, tree.nodes[number].span⟩ := by
        rw [isAfter, touch_nodes, adopt_nodes]
      have lists : after.lists = tree.lists := by rw [isAfter, touch_lists, adopt_lists]
      have others {ref : Ref} (other : ref ≠ some number) : after.kind ref = tree.kind ref := by
        cases ref with
        | none => rfl
        | some place =>
          have apart : number ≠ place := fun same => other (congrArg some same.symm)
          rw [Tree.kind, Tree.kind, node, node, nodes, Array.getElem?_set, if_neg apart]
      have here : after.kind (some number) = kind := by simp [Tree.kind, node, nodes]
      have types (ref : Ref) : after.IsType ref ↔ tree.IsType ref := by
        by_cases isPlace : ref = some number
        · rw [IsType, IsType, isPlace, here, same]
        · rw [IsType, IsType, others isPlace]
      have prefixed : tree.lists.toList <+: after.lists.toList := by simp [lists]
      refine ⟨by simp [size, nodes], prefixed, fun ref _ => types ref, fun ref => ?_⟩
      by_cases isPlace : ref = some number
      · rw [isPlace, here]
        exact fits.mono prefixed fun ref => (types ref).2
      · rw [others isPlace]
        exact (formed ref).mono prefixed fun ref => (types ref).2
    · exact .refl formed

/-- Adding a list keeps the types, and a list of types holds types. -/
theorem allocList_keepsTypes
    (refs : List Ref) : Edit.KeepsTypes (allocList refs) tree fun range after =>
    (∀ ref ∈ refs, after.IsType ref) → after.HoldsTypes (.many range) := by
  intro formed
  refine ⟨keepsTypes_of_nodes formed rfl (by simp [allocList]), fun types =>
    ⟨by simp [HasSlot, allocList], ?_⟩⟩
  intro ref member
  refine types ref ?_
  simpa [items, allocList, List.take_of_length_le] using member

theorem setParent_keepsTypes (ref parent : Ref) :
    Edit.KeepsTypes (modify (·.setParent ref parent)) tree fun (_ : PUnit) _ => True := by
  intro formed
  change tree.KeepsTypes (tree.setParent ref parent) ∧ True
  exact ⟨keepsTypes_of_nodes formed (setParent_nodes ..) (by simp), trivial⟩

theorem setRoot_keepsTypes (root : Ref) : Edit.KeepsTypes (setRoot root) tree fun _ _ => True := by
  exact fun formed => ⟨keepsTypes_of_nodes formed (by simp [setRoot]) (by simp [setRoot]), trivial⟩

/-- What becomes of a child position that is edited keeps the types: no type is found where
something else is to be replaced. -/
theorem substituteSlot_keepsTypes (isOther : tree.IsOther target) (replacements : List Ref)
    (listsOnly : Bool) (slot : NodeSlot) :
    Edit.KeepsTypes (substituteSlot target replacements listsOnly slot) tree fun result after =>
      ∀ slot' ∈ result, Slot.Alike slot slot' ∧
      (tree.HoldsTypes slot → after.HoldsTypes slot') := by
  intro formed
  unfold substituteSlot
  split
  · rename_i child
    split
    · rename_i replacement
      refine ⟨.refl formed, fun slot' found => ?_⟩
      simp only [Option.mem_ite_none_right, Bool.and_eq_true, decide_eq_true_eq] at found
      obtain ⟨⟨rfl, -⟩, isSlot⟩ := found
      obtain rfl := Option.mem_some_iff.1 isSlot
      exact ⟨.one, fun holds => absurd (holds isOther.1.ne_none) isOther.2⟩
    · exact ⟨.refl formed, fun _ found => absurd found (Option.not_mem_none _)⟩
  · rename_i range
    simp only
    split
    · rename_i contained
      refine ⟨(allocList_keepsTypes _ formed).1, fun slot' found => ?_⟩
      obtain rfl := Option.mem_some_iff.1 found
      exact ⟨.many, fun holds =>
        absurd (holds.2 target (List.contains_iff_mem.1 contained)) isOther.2⟩
    · exact ⟨.refl formed, fun _ found => absurd found (Option.not_mem_none _)⟩

/-- Putting other nodes in the place of what is no type keeps the types. -/
theorem editChild_keepsTypes (isOther : tree.IsOther target)
    (parent : Ref) (replacements : List Ref) (listsOnly : Bool) :
    Edit.KeepsTypes (editChild parent target replacements listsOnly) tree fun _ _ => True := by
  let post (after : Tree) (slot : NodeSlot) (result : NodeSlot × Option NodeSlot) : Prop :=
    result.1 = slot ∧
    ∀ slot' ∈ result.2, Slot.Alike slot slot' ∧ (tree.HoldsTypes slot → after.HoldsTypes slot')
  have tries :
      Edit.KeepsTypes ((tree.kind parent).slots.mapM (tried target replacements listsOnly)) tree
      fun results after => List.Forall₂ (post after) (tree.kind parent).slots results := by
    refine .mapM (fun before after slot result keeps posted => ⟨posted.1, fun slot' found => ?_⟩)
      fun slot _ middle keeps => ?_
    · exact ⟨(posted.2 slot' found).1, fun holds => ((posted.2 slot' found).2 holds).of_keeps keeps⟩
    · refine (substituteSlot_keepsTypes (keeps.isOther_of isOther) replacements listsOnly slot).bind
        fun result after _ edits => .pure ⟨rfl, fun slot' found => ?_⟩
      exact ⟨(edits slot' found).1, fun holds => (edits slot' found).2 (holds.of_keeps keeps)⟩
  rw [editChild]
  refine .given fun formed => .get_bind (tries.bind fun results middle keeps edits =>
    .ite (fun _ => .pure trivial) fun some => ?_)
  have stored : tree.HasRef parent := by
    by_contra missing
    have isNull : tree.kind parent = .null :=
      by_contra fun other => missing (hasRef_of_kind_ne other)
    rw [isNull] at edits
    obtain rfl := List.forall₂_nil_left_iff.1 edits
    exact some rfl
  have fits : middle.FitsTypes ((tree.kind parent).withSlots none .empty
      (results.map fun tried => tried.2.getD tried.1)) := by
    refine (formed parent).withSlots
      (List.forall₂_map_right_iff.2 (edits.imp fun slot result edit => ?_))
    obtain ⟨slot, result⟩ := result
    obtain ⟨rfl, edit⟩ := edit
    cases result with
    | none => exact ⟨by cases slot <;> constructor, fun holds => holds.of_keeps keeps⟩
    | some slot' => exact edit slot' rfl
  have same : ((tree.kind parent).withSlots none .empty
      (results.map fun tried => tried.2.getD tried.1)).isType = (middle.kind parent).isType := by
    rw [Kind.isType_withSlots, Bool.eq_iff_iff]
    exact (keeps.isType parent stored).symm
  refine (setKind_keepsTypes fits same).bind fun _ after _ _ => .get_bind ?_
  split
  · exact .pure trivial
  · exact (setParent_keepsTypes target none).bind fun _ _ _ _ => .pure trivial

theorem replaceChild_keepsTypes (isOther : tree.IsOther target) (parent replacement : Ref) :
    Edit.KeepsTypes (replaceChild parent target replacement) tree fun _ _ => True :=
  editChild_keepsTypes isOther parent [replacement] false

theorem spliceChild_keepsTypes (isOther : tree.IsOther target) (parent : Ref)
    (replacements : List Ref) :
    Edit.KeepsTypes (spliceChild parent target replacements) tree fun _ _ => True :=
  editChild_keepsTypes isOther parent replacements true

/-- An edit that makes a node of another keeps the types, and makes types of types. -/
def CopiesTypes (copy : Ref → Edit Ref) (tree : Tree) : Prop :=
  ∀ ref middle, tree.KeepsTypes middle → Edit.KeepsTypes (copy ref) middle fun result after =>
    middle.IsType ref → after.IsType result

/-- A copied child position holds types where the position did. -/
theorem duplicateSlot_keepsTypes {copy : Ref → Edit Ref} (copies : CopiesTypes copy tree)
    (slot : NodeSlot) :
    Edit.KeepsTypes (duplicateSlot copy slot) tree fun slot' after =>
      Slot.Alike slot slot' ∧ (tree.HoldsTypes slot → after.HoldsTypes slot') := by
  unfold duplicateSlot
  split
  · exact .pure ⟨.one, id⟩
  · rename_i child present
    refine .given fun formed => (copies child tree (.refl formed)).bind fun result after _ isType =>
      .pure ⟨.one, fun holds _ => isType (holds present)⟩
  · rename_i range
    refine .get_bind ?_
    have copied : Edit.KeepsTypes ((tree.items range).mapM copy) tree fun results after =>
        List.Forall₂ (fun item result => tree.IsType item → after.IsType result)
          (tree.items range) results := by
      refine .mapM (fun before after item result keeps isType isItem =>
        keeps.isType_of (isType isItem)) fun item _ middle keeps => ?_
      exact (copies item middle keeps).mono fun result after _ isType isItem =>
        isType (keeps.isType_of isItem)
    refine copied.bind fun results middle keeps types => (allocList_keepsTypes results).bind
      fun list after keeps' holds =>
      .pure ⟨.many, fun slotTypes => holds fun ref member => keeps'.isType_of ?_⟩
    obtain ⟨item, isItem, isType⟩ := exists_of_mem_right types member
    exact isType (slotTypes.2 item isItem)

/-- A copy keeps the types, and a copy of a type is a type. -/
theorem duplicateWithin_keepsTypes (bound : Nat)
    (ref : Ref) : Edit.KeepsTypes (duplicateWithin bound ref) tree
    fun result after => tree.IsType ref → after.IsType result := by
  induction bound generalizing ref tree with
  | zero => exact .pure id
  | succ bound ih =>
    refine .given fun formed => ?_
    have copies : CopiesTypes (duplicateWithin bound) tree := fun ref middle _ => ih ref
    have copied :
        Edit.KeepsTypes ((tree.kind ref).slots.mapM (duplicateSlot (duplicateWithin bound))) tree
        fun slots after => List.Forall₂ (fun slot slot' => Slot.Alike slot slot' ∧
          (tree.HoldsTypes slot → after.HoldsTypes slot')) (tree.kind ref).slots slots := by
      refine .mapM (fun before after slot slot' keeps copied =>
        ⟨copied.1, fun holds => (copied.2 holds).of_keeps keeps⟩) fun slot _ middle keeps => ?_
      exact (duplicateSlot_keepsTypes
        (fun ref after keeps' => copies ref after (keeps.trans keeps')) slot).mono
        fun slot' after _ copied => ⟨copied.1, fun holds => copied.2 (holds.of_keeps keeps)⟩
    rw [duplicateWithin]
    refine .get_bind (copied.bind fun slots middle keeps types => ?_)
    refine (alloc_keepsTypes ((formed ref).withSlots types) _).mono
      fun result after _ isNew isType => isNew.2.2 ?_
    rwa [Kind.isType_withSlots]

/-- A copy of a node and of all below it keeps the types, and a copy of a type is a type. -/
theorem duplicate_keepsTypes (ref : Ref) : Edit.KeepsTypes (duplicate ref) tree
    fun result after => tree.IsType ref → after.IsType result := by
  rw [duplicate]
  exact .get_bind (duplicateWithin_keepsTypes _ ref)

/-- A counted edit keeps the types of a tree, whatever the count, and its result is as said. -/
abbrev Counted.KeepsTypes {α : Type} (edit : Counted α) :=
    Counted.Keeps TypesFormed Tree.KeepsTypes edit

/-- A visit keeps the types, and makes types of types. -/
def VisitsTypes (visit : Ref → Counted Ref) (tree : Tree) : Prop :=
  ∀ ref middle, tree.KeepsTypes middle → Counted.KeepsTypes (visit ref) middle fun result after =>
    middle.IsType ref → after.IsType result

/-- A visited child position holds types where the position did. -/
theorem visitSlot_keepsTypes {visit : Ref → Counted Ref} (visits : VisitsTypes visit tree)
    (slot : NodeSlot) :
    Counted.KeepsTypes (visitSlot visit slot) tree fun slot' after =>
      Slot.Alike slot slot' ∧ (tree.HoldsTypes slot → after.HoldsTypes slot') := by
  unfold visitSlot
  split
  · exact .pure ⟨.one, id⟩
  · rename_i child present
    refine .given fun formed => (visits child tree (.refl formed)).bind fun result after _ isType =>
      .pure ⟨.one, fun holds _ => isType (holds present)⟩
  · rename_i range
    refine .get_bind ?_
    have visited : Counted.KeepsTypes ((tree.items range).mapM visit) tree fun results after =>
        List.Forall₂ (fun item result => tree.IsType item → after.IsType result)
          (tree.items range) results := by
      refine .mapM (fun before after item result keeps isType isItem =>
        keeps.isType_of (isType isItem)) fun item _ middle keeps => ?_
      exact (visits item middle keeps).mono fun result after _ isType isItem =>
        isType (keeps.isType_of isItem)
    refine visited.bind fun results middle keeps types => ?_
    split
    · exact .pure ⟨.many, fun holds => holds.of_keeps keeps⟩
    · refine (Counted.Keeps.lift (allocList_keepsTypes results)).bind fun list after keeps' holds =>
        .pure ⟨.many, fun slotTypes => holds fun ref member => keeps'.isType_of ?_⟩
      obtain ⟨item, isItem, isType⟩ := exists_of_mem_right types member
      exact isType (slotTypes.2 item isItem)

/-- A node that is rebuilt from visited children is a type if it was one. -/
theorem rebuild_keepsTypes {visit : Ref → Counted Ref} (visits : VisitsTypes visit tree)
    (ref : Ref) :
    Counted.KeepsTypes (rebuild visit ref) tree fun result after =>
    tree.IsType ref → after.IsType result := by
  have visited : Counted.KeepsTypes ((tree.kind ref).slots.mapM (visitSlot visit)) tree
      fun slots after => List.Forall₂ (fun slot slot' => Slot.Alike slot slot' ∧
        (tree.HoldsTypes slot → after.HoldsTypes slot')) (tree.kind ref).slots slots := by
    refine .mapM (fun before after slot slot' keeps copied =>
      ⟨copied.1, fun holds => (copied.2 holds).of_keeps keeps⟩) fun slot _ middle keeps => ?_
    exact (visitSlot_keepsTypes
      (fun ref after keeps' => visits ref after (keeps.trans keeps')) slot).mono
      fun slot' after _ visited => ⟨visited.1, fun holds => visited.2 (holds.of_keeps keeps)⟩
  rw [rebuild]
  refine .given fun formed => .get_bind (visited.bind fun slots middle keeps types => ?_)
  split
  · exact .pure keeps.isType_of
  · refine .lift ((alloc_keepsTypes ((formed ref).withSlots types) _).mono
      fun result after _ isNew isType => isNew.2.2 ?_)
    rwa [Kind.isType_withSlots]

/-- A rule leaves types to be rebuilt. -/
def Rule.SparesTypes (rule : Rule) (tree : Tree) : Prop :=
  ∀ count ref middle, tree.KeepsTypes middle →
    Edit.KeepsTypes (rule count ref) middle fun verdict _ =>
    middle.IsType ref → verdict = .rebuild

/-- A fold keeps the types if its rule leaves types to be rebuilt. -/
theorem foldWithin_keepsTypes {rule : Rule} (spares : rule.SparesTypes tree) (bound : Nat)
    (ref : Ref) :
    Counted.KeepsTypes (foldWithin rule bound ref) tree fun result after =>
    tree.IsType ref → after.IsType result := by
  induction bound generalizing ref tree with
  | zero => exact .pure id
  | succ bound ih =>
    rw [foldWithin]
    refine .given fun formed => .count_bind fun count => ?_
    refine (Counted.Keeps.lift (spares count ref tree (.refl formed))).bind
      fun verdict middle keeps isRebuilt => ?_
    have later {after : Tree} (keeps' : middle.KeepsTypes after) : rule.SparesTypes after :=
      fun count ref final keeps'' => spares count ref final ((keeps.trans keeps').trans keeps'')
    split
    · refine (rebuild_keepsTypes (fun ref after keeps' => ih (later keeps') ref) ref).mono
        fun result after _ isType wasType => isType (keeps.isType_of wasType)
    · refine (Counted.Keeps.modify _).bind fun _ after _ _ => .pure ?_
      exact fun wasType => Verdict.noConfusion (isRebuilt wasType)
    · refine (ih (later (.refl keeps.formed)) _).mono fun _ _ _ _ wasType => ?_
      exact Verdict.noConfusion (isRebuilt wasType)

/-- A fold keeps the types if its rule leaves types to be rebuilt. -/
theorem fold_keepsTypes {rule : Rule} (spares : rule.SparesTypes tree) (ref : Ref) :
    Edit.KeepsTypes (fold rule ref) tree fun _ _ => True := by
  rw [fold]
  exact .get_bind ((foldWithin_keepsTypes spares _ ref) 0).weaken

end Tree

end Refactory
