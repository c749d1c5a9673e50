import Refactory.Proofs.Tree.Building

/-!
# Adding nodes and lists

Adding a node builds a term of the terms below it (`Tree.alloc_builds`): the node adopts its
children, which are the only ones whose links move. Giving a node another kind makes it the parent
of other children (`Tree.setKind_frame`).
-/
namespace Refactory

namespace Tree

open Term

section

variable {tree : Tree} {kind : NodeKind} {form : Form Place}

/-- The children of a slot are those of the form that the slot shows. -/
theorem Holds.slotChildren {slot : NodeSlot} {content : Slot (Option Outline) (List Outline)}
    (holds : tree.Holds slot content) : tree.slotChildren slot = content.terms.map Term.ref := by
  match slot, content, holds with
  | .one ref, .one none, ⟨same, _⟩ =>
    obtain rfl : none = ref := same
    rfl
  | .one ref, .one (some child), ⟨same, named⟩ =>
    obtain rfl : child.ref = ref := same
    obtain ⟨number, place⟩ := Option.ne_none_iff_exists'.1 (named child rfl)
    simp [Tree.slotChildren, place]
  | .many range, .many children, ⟨entries, _⟩ => exact entries

/-- The children of slots are those of the slots of a form that they show. -/
theorem flatMap_slotChildren {slots : List NodeSlot}
    {contents : List (Slot (Option Outline) (List Outline))}
    (holds : List.Forall₂ tree.Holds slots contents) :
    slots.flatMap tree.slotChildren = (contents.flatMap Slot.terms).map Term.ref := by
  induction holds with
  | nil => rfl
  | cons first _ ih =>
    rw [List.flatMap_cons, List.flatMap_cons, List.map_append, ih, first.slotChildren]

/-- The children of a kind are those of the form that it shows. -/
theorem Depicts.kindChildren (depicts : tree.Depicts kind form) :
    tree.kindChildren kind = (parts form).map Term.ref := flatMap_slotChildren depicts.slots

end

section

variable (tree : Tree) (ref parent : Ref)

@[simp] theorem touch_nodes : tree.touch.nodes = tree.nodes := rfl

@[simp] theorem touch_lists : tree.touch.lists = tree.lists := rfl

@[simp] theorem touch_root : tree.touch.root = tree.root := rfl

@[simp] theorem touch_parents : tree.touch.parents = tree.parents := rfl

@[simp] theorem setParent_nodes : (tree.setParent ref parent).nodes = tree.nodes := by
  cases ref <;> rfl

@[simp] theorem setParent_lists : (tree.setParent ref parent).lists = tree.lists := by
  cases ref <;> rfl

@[simp] theorem setParent_root : (tree.setParent ref parent).root = tree.root := by
  cases ref <;> rfl

@[simp] theorem setParent_size : (tree.setParent ref parent).size = tree.size := by
  rw [size, setParent_nodes, size]

@[simp] theorem setParent_parents_size :
    (tree.setParent ref parent).parents.size = tree.parents.size := by
  cases ref <;> simp [setParent]

@[simp] theorem setParent_clock : (tree.setParent ref parent).clock = tree.clock := by
  cases ref <;> rfl

@[simp] theorem setParent_version : (tree.setParent ref parent).version = tree.version := by
  cases ref <;> rfl

/-- Adopting children changes nothing that setting one link does not change. -/
theorem adopt_eq {α : Type} (part : Tree → α)
    (same : ∀ (tree : Tree) (ref parent : Ref), part (tree.setParent ref parent) = part tree)
    (kind : NodeKind) : part (tree.adopt parent kind) = part tree := by
  rw [adopt]
  induction tree.kindChildren kind generalizing tree with
  | nil => rfl
  | cons child children ih => rw [List.foldl_cons, ih, same]

@[simp] theorem adopt_nodes (kind : NodeKind) : (tree.adopt parent kind).nodes = tree.nodes :=
  adopt_eq tree parent Tree.nodes setParent_nodes kind

@[simp] theorem adopt_lists (kind : NodeKind) : (tree.adopt parent kind).lists = tree.lists :=
  adopt_eq tree parent Tree.lists setParent_lists kind

@[simp] theorem adopt_clock (kind : NodeKind) : (tree.adopt parent kind).clock = tree.clock :=
  adopt_eq tree parent Tree.clock setParent_clock kind

/-- A node with another kind is still one node. -/
theorem size_setKind (kind : NodeKind) : (Tree.setKind ref kind tree).2.size = tree.size := by
  cases ref with
  | none => rfl
  | some number =>
    rw [Tree.setKind]
    simp only
    split <;> simp [Tree.size]

/-- The link of a stored node is set, and all others are as before. -/
theorem parent_setParent {other : Ref} (stored : ∀ number, other = some number →
    number < tree.parents.size) :
    (tree.setParent ref parent).parent other
      = if other = ref then (if ref = none then none else parent) else tree.parent other := by
  cases ref with
  | none =>
    cases other <;> simp [setParent, Tree.parent]
  | some number =>
    cases other with
    | none => simp [Tree.parent]
    | some other =>
      have inside := stored other rfl
      by_cases same : other = number
      · subst same
        simp [setParent, Tree.parent, inside]
      · simp [setParent, Tree.parent, same, Ne.symm same]

/-- Setting a link moves it and changes nothing else. -/
theorem setParent_frame (hasParent : parent ≠ none → tree.HasRef parent) :
    Frame [] [ref] tree (tree.setParent ref parent) where
  size := by simp
  nodes _ _ _ := by simp
  parents number inside outside := by
    cases ref with
    | none => rfl
    | some target =>
      have other : target ≠ number := fun same => outside (by simp [same])
      simp [setParent, Tree.parent, other]
  lists := by simp
  root := by simp
  stored stored := {
    aligned := by simpa using stored.aligned
    slots := by
      intro node member slot inside
      have hasSlot := stored.slots node (by simpa using member) slot inside
      cases slot <;> simpa [HasSlot, HasRef] using hasSlot
    entries := by
      intro entry member
      simpa [HasRef] using stored.entries entry (by simpa using member)
    links := by
      intro entry member present
      have hasRef : tree.HasRef entry := by
        cases ref with
        | none => exact stored.links entry member present
        | some number =>
          rcases Array.mem_or_eq_of_mem_setIfInBounds member with member | rfl
          · exact stored.links entry member present
          · exact hasParent present
      simpa [HasRef] using hasRef }

/-- Taking a new version changes nothing else. -/
theorem Frame.touch {changed moved : List Ref} {before after : Tree}
    (frame : Frame changed moved before after) : Frame changed moved before after.touch where
  __ := frame
  stored stored :=
    have ⟨aligned, slots, entries, links⟩ := frame.stored stored
    ⟨aligned, slots, entries, links⟩

end

section

variable {tree : Tree} {parent : Ref} (hasParent : parent ≠ none → tree.HasRef parent)

include hasParent

/-- Setting the links of some nodes moves them and changes nothing else. -/
theorem setParents_frame (children : List Ref) : Frame [] children tree
    (children.foldl (fun tree child => tree.setParent child parent) tree) := by
  induction children generalizing tree with
  | nil => exact .refl tree
  | cons child children ih =>
    have first := setParent_frame tree child parent hasParent
    have others := ih fun present => (hasParent present).of_frame first
    refine (first.mono (fun _ => by simp) ?_).trans others (fun _ => by simp) ?_
    · exact fun ref member _ => List.mem_singleton.1 member ▸ .head _
    · exact fun ref member _ => .tail _ member

/-- The links lead to the parent afterwards. -/
theorem parent_setParents {children : List Ref} {child : Ref} (member : child ∈ children)
    (hasChild : tree.HasRef child) (aligned : tree.parents.size = tree.size) :
    (children.foldl (fun tree child => tree.setParent child parent) tree).parent child =
    parent := by
  induction children generalizing tree with
  | nil => cases member
  | cons first children ih =>
    have moved := setParent_frame tree first parent hasParent
    have hasParent := fun present => (hasParent present).of_frame moved
    have hasChild' := hasChild.of_frame moved
    by_cases again : child ∈ children
    · exact ih hasParent again hasChild' (by simpa using aligned)
    · obtain rfl : child = first := (List.mem_cons.1 member).resolve_right again
      obtain ⟨number, inside, rfl⟩ := hasChild
      have unmoved :=
        (setParents_frame hasParent children).parents number (by simpa using inside) again
      refine unmoved.trans ?_
      rw [parent_setParent tree (some number) parent fun other same => ?_, if_pos rfl,
        if_neg (Option.some_ne_none number)]
      cases same
      rwa [aligned]

end

section

variable {tree : Tree} {kind : NodeKind} {form : Form Place}

/-- A node that is shown lies in the stores if its children do. -/
theorem Depicts.hasSlot (depicts : tree.Depicts kind form)
    (hasRef : ∀ child ∈ parts form, tree.HasRef child.ref) :
    ∀ slot ∈ kind.slots, tree.HasSlot slot := by
  have hasRef : ∀ content ∈ form.slots, ∀ child ∈ content.terms, tree.HasRef child.ref :=
    fun content member child inside => hasRef child (mem_parts.2 ⟨content, member, inside⟩)
  have slots := depicts.slots
  generalize kind.slots = slots, form.slots = contents at slots hasRef
  induction slots with
  | nil => exact fun _ inside => absurd inside List.not_mem_nil
  | @cons slot content slots contents holds _ ih =>
    intro other member
    rcases List.mem_cons.1 member with rfl | member
    · match other, content, holds with
      | .one ref, .one none, ⟨same, _⟩ =>
        obtain rfl : none = ref := same
        exact fun absent => absurd rfl absent
      | .one ref, .one (some child), ⟨same, _⟩ =>
        obtain rfl : child.ref = ref := same
        exact fun _ => hasRef _ (.head _) child (by simp)
      | .many range, .many children, ⟨_, inside⟩ => exact inside
    · exact ih (fun content member => hasRef content (.tail _ member)) other member

/-- A tree with one more node that lies in the stores. -/
theorem push_frame (hasSlot : ∀ slot ∈ kind.slots, tree.HasSlot slot) (span : Span) :
    Frame [] [] tree { tree with
      nodes := tree.nodes.push ⟨kind, span⟩, parents := tree.parents.push none } where
  size := by simp [size]
  nodes number inside _ := by
    have other : number ≠ tree.nodes.size := Nat.ne_of_lt inside
    simp [Array.getElem?_push, other]
  parents number _ _ := by
    simp only [Tree.parent, Array.getElem?_push]
    split
    · simp_all
    · rfl
  lists := List.prefix_rfl
  root := rfl
  stored stored := {
    aligned := by simpa [size] using stored.aligned
    slots := by
      intro node member slot inside
      have hasSlot : tree.HasSlot slot := by
        rcases Array.mem_push.1 member with member | rfl
        · exact stored.slots node member slot inside
        · exact hasSlot slot inside
      exact hasSlot.mono (by simp [size]) (Nat.le_refl _)
    entries := fun entry member => (stored.entries entry member).mono (by simp [size])
    links := by
      intro link member present
      rcases Array.mem_push.1 member with member | rfl
      · exact (stored.links link member present).mono (by simp [size])
      · exact absurd rfl present }

/-- A tree in which a stored node has another kind that lies in the stores. -/
theorem setNode_frame {number : Nat} {node : Node}
    (hasSlot : ∀ slot ∈ node.kind.slots, tree.HasSlot slot) :
    Frame [some number] [] tree { tree with nodes := tree.nodes.setIfInBounds number node } where
  size := by simp [size]
  nodes other _ outside := by
    have other : number ≠ other := fun same => outside (by simp [same])
    simp [other]
  parents _ _ _ := rfl
  lists := List.prefix_rfl
  root := rfl
  stored stored := {
    aligned := by simpa [size] using stored.aligned
    slots := by
      intro other member slot inside
      have hasSlot : tree.HasSlot slot := by
        rcases Array.mem_or_eq_of_mem_setIfInBounds member with member | rfl
        · exact stored.slots other member slot inside
        · exact hasSlot slot inside
      exact hasSlot.mono (by simp [size]) (Nat.le_refl _)
    entries := fun entry member => (stored.entries entry member).mono (by simp [size])
    links := fun link member present => (stored.links link member present).mono (by simp [size]) }

/-- A node is shown with its children once it has adopted them, which moves their links and no
others. -/
theorem adopt_shows {start changed : Tree} {number : Nat} {node : Node}
    (changes : Frame [some number] [] start changed) (found : changed.nodes[number]? = some node)
    (stored : changed.Stored) (depicts : changed.Depicts node.kind form)
    (hasRef : ∀ child ∈ parts form, start.HasRef child.ref) :
    Frame [some number] ((parts form).map Term.ref) start
        (changed.adopt (some number) node.kind).touch ∧
      (changed.adopt (some number) node.kind).touch.Shows (.node ⟨some number, node.span⟩ form) ∧
      (changed.adopt (some number) node.kind).touch.Adopts
      (.node ⟨some number, node.span⟩ form) := by
  have inside : number < changed.size := (Array.getElem?_eq_some_iff.1 found).1
  have adopts :
      Frame [] ((parts form).map Term.ref) changed (changed.adopt (some number) node.kind) := by
    rw [adopt, depicts.kindChildren]
    exact setParents_frame (fun _ => ⟨number, inside, rfl⟩) _
  refine ⟨?_, ⟨number, node.kind, rfl, ?_, ?_⟩, fun child member => ?_⟩
  · exact ((changes.mono (fun _ member _ => member) fun _ inside =>
      absurd inside List.not_mem_nil).trans adopts
      (fun _ inside => absurd inside List.not_mem_nil) fun _ member _ => member).touch
  · exact (adopts.nodes number inside List.not_mem_nil).trans found
  · exact depicts.of_frame adopts.touch
  · change (changed.adopt (some number) node.kind).parent child.ref = some number
    rw [adopt, depicts.kindChildren]
    exact parent_setParents (fun _ => ⟨number, inside, rfl⟩) (List.mem_map_of_mem member)
      ((hasRef child member).of_frame changes) stored.aligned

/-- A node that is shown with children that it has adopted stands if the children stood, nothing of
them was changed, and no link below them was moved. -/
theorem StandsAll.adopted {changed moved : List Ref} {start after : Tree} {place : Place}
    (children : start.StandsAll (parts form)) (frame : Frame changed moved start after)
    (shows : after.Shows (.node place form)) (adopts : after.Adopts (.node place form))
    (outside : place.ref ∉ (parts form).flatMap refs)
    (unchanged : ∀ ref ∈ (parts form).flatMap refs, ref ∉ changed)
    (unmoved : ∀ child ∈ parts form, ∀ ref ∈ child.innerRefs, ref ∉ moved) :
    after.Stands (.node place form) := by
  have standing : ∀ child ∈ parts form, after.Stands child := fun child member =>
    (children.each child member).of_frame frame
      (fun ref inside => unchanged ref (List.mem_flatMap.2 ⟨child, member, inside⟩))
    (unmoved child member)
  refine ⟨All.node_iff.2 ⟨shows, fun child member => (standing child member).shown⟩,
    All.node_iff.2 ⟨adopts, fun child member => (standing child member).adopted⟩, ?_⟩
  rw [refs_node]
  exact List.nodup_cons.2 ⟨outside, children.once⟩

/-- A node stands with its children once it has adopted them, if they stood before. -/
theorem StandsAll.adopted_here {start after : Tree} {place : Place}
    (children : start.StandsAll (parts form))
    (frame : Frame [place.ref] ((parts form).map Term.ref) start after)
    (shows : after.Shows (.node place form)) (adopts : after.Adopts (.node place form))
    (outside : place.ref ∉ (parts form).flatMap refs) : after.Stands (.node place form) :=
  children.adopted frame shows adopts outside
    (fun _ inside isPlace => outside (List.mem_singleton.1 isPlace ▸ inside))
    fun _ member _ inside => children.innerRefs_not_root member inside

/-- The roots of terms are some of their places. -/
theorem mem_flatMap_refs_of_root {terms : List Outline} {ref : Ref}
    (member : ref ∈ terms.map Term.ref) : ref ∈ terms.flatMap refs := by
  obtain ⟨term, inside, rfl⟩ := List.mem_map.1 member
  exact List.mem_flatMap.2 ⟨term, inside, ref_mem_refs term⟩

/-- The number of the next node is not taken. -/
theorem not_hasRef_size : ¬tree.HasRef (some tree.size) := by
  rintro ⟨number, stored, same⟩
  cases same
  exact Nat.lt_irrefl _ stored

/-- A node that is added stands with its children if they stood, and only their links have moved. -/
theorem alloc_stands (stored : tree.Stored) (depicts : tree.Depicts kind form)
    (children : tree.StandsAll (parts form)) (span : Span) :
    Frame [] ((parts form).map Term.ref) tree (alloc kind span tree).2 ∧
      (alloc kind span tree).2.Stands (.node ⟨some tree.size, span⟩ form) := by
  have hasSlot := depicts.hasSlot fun child member =>
    (children.each child member).hasRef (ref_mem_refs child)
  have grows := push_frame hasSlot span
  have fresh : some tree.size ∉ (parts form).flatMap refs := fun member =>
    not_hasRef_size (children.hasRef member)
  obtain ⟨frame, shows, adopts⟩ := @adopt_shows _ _ _ tree.size ⟨kind, span⟩
    (grows.after_growth (.refl _)) (by simp [size]) (grows.stored stored) (depicts.of_frame grows)
    fun child member => (children.each child member).hasRef (ref_mem_refs child)
  refine ⟨frame.mono (fun ref member hasRef => ?_) fun _ member _ => member,
    @StandsAll.adopted_here form _ _ ⟨some tree.size, span⟩ children frame shows adopts fresh⟩
  exact absurd (List.mem_singleton.1 member ▸ hasRef) not_hasRef_size

/-- Adding a node builds a term of the terms below it. -/
theorem alloc_builds (stored : tree.Stored) (depicts : tree.Depicts kind form)
    (children : tree.StandsAll (parts form)) (span : Span) :
    Builds (parts form) tree (alloc kind span tree).2 [.node ⟨some tree.size, span⟩ form] := by
  obtain ⟨frame, stands⟩ := alloc_stands stored depicts children span
  refine ⟨frame.mono (fun _ member _ => member) fun ref member _ => mem_flatMap_refs_of_root member,
    StandsAll.singleton_iff.2 stands, fun ref member hasRef => ?_⟩
  simp only [List.flatMap_cons, List.flatMap_nil, List.append_nil, refs_node] at member
  rcases List.mem_cons.1 member with rfl | member
  · exact absurd hasRef not_hasRef_size
  · exact member

/-- Giving a node another kind moves the links of its new children, and the node is shown with
them. -/
theorem setKind_shows {number : Nat} {node : Node} (found : tree.nodes[number]? = some node)
    (stored : tree.Stored) (depicts : tree.Depicts kind form)
    (hasRef : ∀ child ∈ parts form, tree.HasRef child.ref) :
    Frame [some number] ((parts form).map Term.ref) tree (setKind (some number) kind tree).2 ∧
      (setKind (some number) kind tree).2.Shows (.node ⟨some number, node.span⟩ form) ∧
      (setKind (some number) kind tree).2.Adopts (.node ⟨some number, node.span⟩ form) := by
  obtain ⟨inside, found⟩ := Array.getElem?_eq_some_iff.1 found
  have changes := @setNode_frame tree number ⟨kind, node.span⟩ (depicts.hasSlot hasRef)
  have shows := @adopt_shows _ _ _ number ⟨kind, node.span⟩ changes (by simp [inside])
    (changes.stored stored) (depicts.of_frame changes) hasRef
  simpa [setKind, inside, found, Array.setIfInBounds] using shows

/-- The node stands with its new children if they stood, unless it is one of them. -/
theorem setKind_stands {number : Nat} {node : Node} (found : tree.nodes[number]? = some node)
    (stored : tree.Stored) (depicts : tree.Depicts kind form)
    (children : tree.StandsAll (parts form))
    (outside : some number ∉ (parts form).flatMap refs) :
    Frame [some number] ((parts form).map Term.ref) tree (setKind (some number) kind tree).2 ∧
      (setKind (some number) kind tree).2.Stands (.node ⟨some number, node.span⟩ form) := by
  obtain ⟨frame, shows, adopts⟩ := setKind_shows found stored depicts fun child member =>
    (children.each child member).hasRef (ref_mem_refs child)
  exact ⟨frame,
    @StandsAll.adopted_here form _ _ ⟨some number, node.span⟩ children frame shows adopts outside⟩

/-- Adding a list adds its entries and nothing else. -/
theorem allocList_frame {entries : List Ref} (hasRef : ∀ ref ∈ entries, tree.HasRef ref) :
    Frame [] [] tree (allocList entries tree).2 where
  size := Nat.le_refl _
  nodes _ _ _ := rfl
  parents _ _ _ := rfl
  lists := by simp [allocList]
  root := rfl
  stored stored := {
    aligned := stored.aligned
    slots := fun node member slot inside =>
      (stored.slots node member slot inside).mono (Nat.le_refl _) (by simp [allocList])
    entries := by
      intro ref member
      rcases Array.mem_append.1 member with member | member
      · exact stored.entries ref member
      · exact hasRef ref (by simpa using member)
    links := stored.links }

/-- An added list holds its entries. -/
theorem allocList_holds (children : List Outline) :
    (allocList (children.map Term.ref) tree).2.Holds
      (.many (allocList (children.map Term.ref) tree).1) (.many children) := by
  refine ⟨?_, by simp [allocList]⟩
  simp [items, allocList, List.take_of_length_le]

end

end Tree

end Refactory
