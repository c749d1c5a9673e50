import Refactory.Proofs.Tree.Placing
import Refactory.Proofs.Tree.Rereading

/-!
# Other nodes in the place of a child

Where a node is a child of another, any nodes that stand apart from the rest of the tree can come in
its place, and it can itself be among them or below them. What comes out is the tree with the terms
of those nodes in the place (`Tree.Replaced`), and nothing else has changed. Where the node is no
such child nothing changes at all (`Tree.replaceChild_spliceChild`).
-/
namespace Refactory

namespace Term

/-- An outline with other ones in the place of the child at a reference. -/
def replaced (target : Ref) (new : List Outline) : Outline → Outline :=
  rework fun part form => .node part.note (splice target new form)

section

variable {target : Ref} {new : List Outline} {outline whole holder part : Outline}

theorem replaced_node (place : Place) (form : Form Place) : replaced target new (.node place form)
    = .node place (splice target new (mapChildren (replaced target new) form)) := by
  rw [replaced, rework_node]
  rfl

/-- Where no child is at the reference nothing is spliced in. -/
theorem splice_eq_self {form : Form Place} (others : ∀ child ∈ parts form, child.ref ≠ target) :
    splice target new form = form := by
  have slots : form.slots.map (spliceSlot target new) = form.slots := by
    conv => rhs; rw [← List.map_id form.slots]
    refine List.map_congr_left fun content member => ?_
    have others : ∀ child ∈ content.terms, child.ref ≠ target :=
      fun child inside => others child (mem_parts.2 ⟨content, member, inside⟩)
    rcases content with (_ | child) | children
    · rfl
    · simp [spliceSlot, others child (by simp)]
    · have unchanged : (children.flatMap fun term => if term.ref = target then new else [term])
          = children := by
        conv => rhs; rw [← List.flatMap_singleton' children]
        exact List.flatMap_congr fun term inList => if_neg (others term (by simpa using inList))
      simp [spliceSlot, unchanged]
  rw [splice, slots, Kind.withSlots_slots]

/-- A child after a splice is one of the new terms or another child. -/
theorem mem_parts_splice {form : Form Place} {listsOnly : Bool} {child : Outline}
    (fits : ∀ content ∈ form.slots, FitsInto target new listsOnly content)
    (member : child ∈ parts (splice target new form)) :
    child ∈ new ∨ child ∈ parts form ∧ child.ref ≠ target := by
  rw [parts_splice fits] at member
  obtain ⟨old, isOld, inside⟩ := List.mem_flatMap.1 member
  split at inside
  · exact .inl inside
  · rename_i other
    obtain rfl := List.mem_singleton.1 inside
    exact .inr ⟨isOld, other⟩

/-- Nothing changes where nothing below the root is at the reference. -/
theorem replaced_eq_self (absent : target ∉ outline.innerRefs) :
    replaced target new outline = outline := by
  induction outline using Term.induction with
  | step place form ih =>
    have unchanged : mapChildren (replaced target new) form = form :=
      mapChildren_eq_self fun child member => ih child member fun inside =>
      absent (mem_innerRefs.2 ⟨child, member, innerRefs_subset_refs child inside⟩)
    rw [replaced_node, unchanged, splice_eq_self fun child member same => absent ?_]
    exact mem_innerRefs.2 ⟨child, member, same ▸ ref_mem_refs child⟩

/-- The holder of a child with other terms among its children is in the place of the holder. -/
theorem swap_splice (once : whole.refs.Nodup) (within : holder ∈ whole.subterms)
    (held : part ∈ holder.children) :
    swap holder.ref (.node holder.note (splice part.ref new holder.kind)) whole =
    replaced part.ref new whole := by
  have onceHolder := once.sublist (refs_sublist within)
  have inHolder : part.ref ∈ holder.refs := mem_refs.2 ⟨part, child_mem_subterms held, rfl⟩
  have below : holder.ref ≠ part.ref := ref_ne_of_child onceHolder held (self_mem_subterms part)
  suffices both : swap holder.ref (.node holder.note (splice part.ref new holder.kind)) whole
      = replaced part.ref new whole ∧ whole.ref ≠ part.ref from both.1
  refine @around_induction whole holder (fun whole =>
    swap holder.ref (.node holder.note (splice part.ref new holder.kind)) whole
    = replaced part.ref new whole ∧
      whole.ref ≠ part.ref) once within ⟨?_, below⟩ (fun other apart => ?_)
      fun place form outside ih => ?_
  · have unchanged : mapChildren (replaced part.ref new) holder.kind = holder.kind :=
      mapChildren_eq_self fun child member => replaced_eq_self fun inside => by
        by_cases same : child = part
        · exact ref_not_mem_innerRefs (onceHolder.sublist (refs_sublist (child_mem_subterms held)))
            (same ▸ inside)
        · rw [refs_eq] at onceHolder
          exact disjoint_of_nodup (List.nodup_cons.1 onceHolder).2 member held same
            (innerRefs_subset_refs child inside) (ref_mem_refs part)
    rw [swap_self]
    rcases holder with ⟨place, form⟩
    rw [replaced_node]
    exact congrArg (fun form => Term.node place (splice part.ref new form)) unchanged.symm
  · have absent : part.ref ∉ other.refs := apart inHolder
    refine ⟨?_, fun same => absent (same ▸ ref_mem_refs other)⟩
    rw [swap_of_not_mem (apart (ref_mem_refs holder)),
      replaced_eq_self fun inside => absent (innerRefs_subset_refs other inside)]
  · refine ⟨?_, fun same => outside ((show place.ref = part.ref from same) ▸ inHolder)⟩
    have apart : place.ref ≠ holder.ref := fun same => outside (same ▸ ref_mem_refs holder)
    rw [swap_node, if_neg apart, replaced_node, mapChildren_congr fun child member =>
      (ih child member).1, splice_eq_self fun child member => ?_]
    rw [parts_mapChildren] at member
    obtain ⟨child, isChild, rfl⟩ := List.mem_map.1 member
    rcases child with ⟨inner, below⟩
    rw [replaced_node]
    exact (ih _ isChild).2

end

end Term

namespace Tree

open Term

/-- The children of a child position that is a list. -/
def listItems (tree : Tree) : NodeSlot → List Ref
  | .one _ => []
  | .many range => tree.items range

/-- The children of a node that are in lists. -/
def listed (tree : Tree) (ref : Ref) : List Ref := (tree.kind ref).slots.flatMap tree.listItems

/-- Some nodes can come in the place of a child of a node. The link of the child may lead to what is
around it among these nodes already. -/
structure Replaceable (tree : Tree) (parent target : Ref) (replacements : List Ref) : Prop where
  /-- But for the link of the child, the tree is well formed. -/
  wellFormed : (tree.setParent target parent).WellFormed
  /-- The link leads to the node above the child, or into one of the other nodes. -/
  link : tree.parent target = parent ∨
    ∃ replacement ∈ replacements, tree.parent target ∈ tree.descendants replacement
  /-- The node is part of the tree. -/
  attached : parent ∈ tree.attached
  /-- The other nodes stand, and nothing belongs to two of them. -/
  stands : tree.StandsAll (replacements.map tree.outline)
  /-- They share no node with the rest of the tree. -/
  apart : ∀ replacement ∈ replacements, ∀ ref ∈ tree.descendants replacement,
    ref ∈ tree.attached → ref ∈ tree.descendants target

/-- Some nodes have come in the place of a child of a node, and nothing else has changed. -/
structure Replaced (before after : Tree) (parent target : Ref)
    (replacements : List Ref) : Prop where
  /-- The tree is well formed. -/
  wellFormed : after.WellFormed
  /-- Its term is the old one with the terms of the nodes in the place of the child. -/
  outline : after.outline after.root
    = Term.replaced target (replacements.map before.outline) (before.outline before.root)
  /-- No node is added. -/
  size : after.size = before.size
  /-- No node is another one but the node above the child. -/
  nodes : ∀ ref ≠ parent, after.node ref = before.node ref
  /-- No link leads elsewhere but those of the nodes and of the child. -/
  links : ∀ ref ∉ replacements, ref ≠ target → after.parent ref = before.parent ref
  /-- The link of a child that has lost its place is dropped, unless it leads elsewhere. -/
  dropped : target ∉ replacements →
    after.parent target = if before.parent target = parent then none else before.parent target

section

variable (tree : Tree) (target parent : Ref)

@[simp] theorem setParent_children
    (ref : Ref) : (tree.setParent target parent).children ref = tree.children ref := by
  cases target <;> rfl

@[simp] theorem setParent_descendants (ref : Ref) :
    (tree.setParent target parent).descendants ref = tree.descendants ref := by
  have walks (bound : Nat) (ref : Ref) :
      (tree.setParent target parent).preorder bound ref = tree.preorder bound ref := by
    induction bound generalizing ref with
    | zero => rfl
    | succ bound ih => simp only [preorder, setParent_children, funext ih]
  cases ref with
  | none => rfl
  | some number => simp only [descendants_some, depthBound, setParent_size, walks]

@[simp] theorem setParent_attached : (tree.setParent target parent).attached = tree.attached := by
  rw [attached, attached, setParent_root, setParent_descendants]

@[simp] theorem ref_outline (ref : Ref) : (tree.outline ref).ref = ref := rfl

/-- Of two links the later one counts. -/
theorem setParent_setParent (other : Ref) :
    (tree.setParent target parent).setParent target other = tree.setParent target other := by
  cases target with
  | none => rfl
  | some number => simp only [setParent, Array.setIfInBounds_setIfInBounds]

/-- Setting a link to what it is changes nothing. -/
theorem setParent_parent : tree.setParent target (tree.parent target) = tree := by
  cases target with
  | none => rfl
  | some number =>
    have same : tree.parents.setIfInBounds number (tree.parents[number]?.getD none)
        = tree.parents := by
      refine Array.ext_getElem? fun position => ?_
      rw [Array.getElem?_setIfInBounds]
      split
      · subst position
        split <;> simp_all
      · rfl
    rw [setParent, Tree.parent, same]

end

/-- Editing child positions stores no node. -/
theorem nodes_tried (target : Ref) (replacements : List Ref) (listsOnly : Bool)
    (slots : List NodeSlot) (tree : Tree) :
    (slots.mapM (tried target replacements listsOnly) tree).2.nodes = tree.nodes := by
  have one (slot : NodeSlot)
      (tree : Tree) : (tried target replacements listsOnly slot tree).2.nodes = tree.nodes := by
    change (substituteSlot target replacements listsOnly slot tree).2.nodes = tree.nodes
    unfold substituteSlot
    split
    · split <;> rfl
    · dsimp only
      split <;> rfl
  induction slots generalizing tree with
  | nil => rfl
  | cons slot slots ih => rw [mapM_cons, ih, one]

section

variable {tree : Tree} {parent target : Ref} {replacements : List Ref} {listsOnly : Bool}

/-- A child position that does not have the child is not edited. -/
theorem mapM_tried_eq {slots : List NodeSlot}
    (absent : ∀ slot ∈ slots, substituteSlot target replacements listsOnly slot tree
      = (none, tree)) :
    slots.mapM (tried target replacements listsOnly) tree = (slots.map (·, none), tree) := by
  induction slots with
  | nil => rfl
  | cons slot slots ih =>
    have first : tried target replacements listsOnly slot tree = ((slot, none), tree) := congrArg
      (fun edited : Option NodeSlot × Tree => ((slot, edited.1), edited.2)) (absent slot (.head _))
    rw [mapM_cons, first, ih fun other member => absent other (.tail _ member)]
    rfl

theorem size_dropLink : (dropLink parent target replacements tree).size = tree.size := by
  rw [dropLink]
  split
  · rfl
  · exact setParent_size _ _ _

/-- An edit of a child stores no node. -/
theorem size_editChild :
    (editChild parent target replacements listsOnly tree).2.size = tree.size := by
  rw [editChild_apply]
  dsimp only
  have same :=
    congrArg Array.size (nodes_tried target replacements listsOnly (tree.kind parent).slots tree)
  split
  · exact same
  · change (dropLink _ _ _ _).size = _
    rw [size_dropLink, size_setKind]
    exact same

/-- What is not stored is missing. -/
theorem node_eq_missing {ref : Ref} (absent : ¬tree.HasRef ref) : tree.node ref = .missing := by
  cases ref with
  | none => rfl
  | some number =>
    have outside : tree.nodes.size ≤ number :=
      Nat.le_of_not_lt fun inside => absent ⟨number, inside, rfl⟩
    simp [node, Array.getElem?_eq_none outside]

/-- What is not stored has no parent. -/
theorem parent_eq_none {ref : Ref} (stored : tree.Stored)
    (absent : ¬tree.HasRef ref) : tree.parent ref = none := by
  cases ref with
  | none => rfl
  | some number =>
    have outside : tree.size ≤ number := Nat.le_of_not_lt fun inside => absent ⟨number, inside, rfl⟩
    simp [Tree.parent, Array.getElem?_eq_none (stored.aligned ▸ outside)]

/-- Where a node of a program has a child there are parts for both. -/
theorem IsProgram.exists_held {whole : Outline} (program : tree.IsProgram whole)
    (attached : parent ∈ tree.attached)
    (child : target ∈ tree.children parent) :
    ∃ holder ∈ whole.subterms, ∃ part ∈ holder.children, holder.ref = parent ∧
    part.ref = target := by
  rw [program.attached] at attached
  obtain ⟨holder, within, rfl⟩ := mem_refs.1 attached
  rw [(program.stands.shows within).children] at child
  obtain ⟨part, held, rfl⟩ := List.mem_map.1 child
  exact ⟨holder, within, part, held, rfl, rfl⟩

/-- In a well-formed tree all nodes can come in the place of a child that stand apart from the
rest. -/
theorem WellFormed.replaceable (wellFormed : tree.WellFormed) (attached : parent ∈ tree.attached)
    (child : target ∈ tree.children parent)
    (stands : tree.StandsAll (replacements.map tree.outline)) (apart : ∀ replacement ∈ replacements,
      ∀ ref ∈ tree.descendants replacement, ref ∈ tree.attached → ref ∈ tree.descendants target) :
      tree.Replaceable parent target replacements := by
  obtain ⟨whole, program⟩ := wellFormed_iff.1 wellFormed
  obtain ⟨holder, within, part, held, rfl, rfl⟩ := program.exists_held attached child
  have link := program.stands.parent within held
  exact ⟨by rwa [← link, setParent_parent], .inl link, attached, stands, apart⟩

/-- A link that leads where it led has not moved. -/
theorem Frame.restored {changed : List Ref} {before after : Tree} {ref : Ref}
    (frame : Frame changed [ref] before after)
    (same : after.parent ref = before.parent ref) : Frame changed [] before after where
  __ := frame
  parents number inside _ := by
    by_cases here : some number = ref
    · exact here ▸ same
    · exact frame.parents number inside (by simpa using here)

/-- The parentheses that were put around a child can come in its place. -/
theorem WellFormed.replaceable_paren (wellFormed : tree.WellFormed)
    (attached : parent ∈ tree.attached)
    (child : target ∈ tree.children parent) (span : Span) :
    (alloc (.paren target) span tree).2.Replaceable parent target
    [(alloc (.paren target) span tree).1] := by
  obtain ⟨whole, program⟩ := wellFormed_iff.1 wellFormed
  obtain ⟨holder, within, part, held, rfl, rfl⟩ := program.exists_held attached child
  have standsPart := program.stands.subterm (subterms_child within held)
  have partStored := standsPart.hasRef (ref_mem_refs part)
  have depicts : tree.Depicts (.paren part.ref) (.paren (some part)) :=
    ⟨.cons ⟨rfl, fun _ same => Option.some.inj same ▸ partStored.ne_none⟩ .nil, rfl⟩
  obtain ⟨frame, stands⟩ :=
    alloc_stands program.stored depicts (StandsAll.singleton_iff.2 standsPart) span
  set after := (alloc (.paren part.ref) span tree).2
  have holderStored := (program.stands.hasRef (mem_refs.2 ⟨holder, within, rfl⟩)).of_frame frame
  have unwraps := setParent_frame after part.ref holder.ref fun _ => holderStored
  have aligned : after.parents.size = after.size := (frame.stored program.stored).aligned
  have restored : (after.setParent part.ref holder.ref).parent part.ref = tree.parent part.ref := by
    obtain ⟨number, inside, isPart⟩ := partStored.of_frame frame
    rw [parent_setParent _ _ _ fun other same => ?_, if_pos rfl, if_neg (isPart ▸ nofun),
      program.stands.parent within held]
    rw [isPart] at same
    cases same
    exact aligned ▸ inside
  have programAfter :=
    program.of_frame (((frame.mono (fun _ member _ => member) fun _ member _ => member).trans
    unwraps (fun _ member => absurd member List.not_mem_nil) fun _ member _ =>
    member).restored restored)
  have isInner : part ∈ Term.children (.node ⟨some tree.size, span⟩ (.paren (some part))) := .head _
  have isRef : after.outline (some tree.size) = .node ⟨some tree.size, span⟩ (.paren (some part)) :=
    stands.outline
  have isBelow : after.descendants (some tree.size) = some tree.size :: part.refs := by
    refine stands.descendants.trans ?_
    simp [parts]
  have inAttached {ref : Ref} : ref ∈ after.attached ↔ ref ∈ whole.refs := by
    rw [← setParent_attached after part.ref holder.ref, programAfter.attached]
  refine ⟨programAfter.wellFormed, .inr ⟨_, .head _, ?_⟩, ?_, ?_, ?_⟩
  · change after.parent part.ref ∈ after.descendants (some tree.size)
    rw [stands.adopted.here part isInner, isBelow]
    exact .head _
  · exact inAttached.2 (mem_refs.2 ⟨holder, within, rfl⟩)
  · change after.StandsAll [after.outline (some tree.size)]
    exact isRef ▸ StandsAll.singleton_iff.2 stands
  · intro replacement member ref below inTree
    obtain rfl := List.mem_singleton.1 member
    change ref ∈ after.descendants (some tree.size) at below
    rw [isBelow] at below
    rcases List.mem_cons.1 below with rfl | below
    · exact absurd (program.stands.hasRef (inAttached.1 inTree)) not_hasRef_size
    · rwa [(stands.subterm (child_mem_subterms isInner)).descendants]

/-- The tree is prepared for the nodes, once the link of the child is taken to be what it should
be. -/
theorem Replaceable.exists_prepares (replaceable : tree.Replaceable parent target replacements)
    (child : target ∈ tree.children parent) : ∃ whole holder part,
      (tree.setParent target parent).IsProgram whole ∧
      holder ∈ whole.subterms ∧ part ∈ holder.children ∧ holder.ref = parent ∧
        part.ref = target ∧ Frame [] [target] (tree.setParent target parent) tree ∧ Prepares
          (tree.setParent target parent) tree whole part (replacements.map tree.outline) := by
  obtain ⟨whole, program⟩ := wellFormed_iff.1 replaceable.wellFormed
  have inWhole := replaceable.attached
  rw [← setParent_attached tree target parent] at inWhole
  rw [← setParent_children tree target parent] at child
  obtain ⟨holder, within, part, held, rfl, rfl⟩ := program.exists_held inWhole child
  have descendants {replacement : Ref} (member : replacement ∈ replacements) :
      tree.descendants replacement = (tree.outline replacement).refs :=
    (replaceable.stands.each _ (List.mem_map_of_mem member)).descendants
  have hasLink : (tree.setParent part.ref holder.ref).HasRef (tree.parent part.ref) := by
    rcases replaceable.link with same | ⟨replacement, member, inside⟩
    · exact same ▸ program.stands.hasRef (mem_refs.2 ⟨holder, within, rfl⟩)
    · rw [descendants member] at inside
      have hasRef := (replaceable.stands.each _ (List.mem_map_of_mem member)).hasRef inside
      exact hasRef.mono (by simp)
  have frame := setParent_frame (tree.setParent part.ref holder.ref) part.ref (tree.parent part.ref)
    fun _ => hasLink
  rw [setParent_setParent, setParent_parent] at frame
  refine ⟨whole, holder, part, program, within, held, rfl, rfl, frame,
    ⟨[], [part.ref], frame, by simp, ?_⟩, replaceable.stands, fun ref isNew inWhole => ?_⟩
  · exact fun ref _ moved => List.mem_singleton.1 moved ▸ ref_mem_refs part
  · obtain ⟨_, isTerm, inside⟩ := List.mem_flatMap.1 isNew
    obtain ⟨replacement, member, rfl⟩ := List.mem_map.1 isTerm
    rw [← program.attached, setParent_attached] at inWhole
    have below := replaceable.apart replacement member ref (descendants member ▸ inside) inWhole
    rwa [← setParent_descendants tree part.ref holder.ref,
      (program.stands.subterm (subterms_child within held)).descendants] at below

/-- The link of a child that is not among the nodes in its place is dropped, unless it leads
elsewhere. -/
theorem parent_editChild {holder : Outline} {new : List Outline} (stored : tree.Stored)
    (shows : tree.Shows holder) (member : target ∈ holder.children.map Term.ref)
    (hasRef : ∀ child ∈ holder.children, tree.HasRef child.ref)
    (hasNew : ∀ term ∈ new, tree.HasRef term.ref)
    (fits : ∀ content ∈ holder.kind.slots, FitsInto target new listsOnly content)
    (notNew : target ∉ new.map Term.ref) :
    (editChild holder.ref target (new.map Term.ref) listsOnly tree).2.parent target
      = if tree.parent target = holder.ref then none else tree.parent target := by
  rcases holder with ⟨place, form⟩
  obtain ⟨middle, edited, frame, -, -⟩ := editChild_shows stored shows member hasRef hasNew fits
  obtain ⟨child, isChild, rfl⟩ := List.mem_map.1 member
  obtain ⟨number, inside, isNumber⟩ := hasRef child isChild
  have unmoved : middle.parent child.ref = tree.parent child.ref := by
    rw [isNumber] at notNew ⊢
    refine frame.parents number inside fun moved => ?_
    obtain ⟨other, isOther, same⟩ := List.mem_map.1 moved
    rcases mem_parts_splice fits isOther with isNew | ⟨-, differs⟩
    · exact notNew (same ▸ List.mem_map_of_mem isNew)
    · exact differs (same.trans isNumber.symm)
  have stays : middle.parents.size = middle.size := (frame.stored stored).aligned
  rw [show editChild (Term.ref (.node place form)) child.ref _ _ _ = _ from edited, dropLink,
    ref_node, unmoved]
  split
  · rename_i kept
    simp only [Bool.or_eq_true, List.contains_iff_mem, notNew, false_or, bne_iff_ne, ne_eq] at kept
    rw [if_neg kept, unmoved]
  · rename_i lost
    simp only [Bool.or_eq_true, List.contains_iff_mem, notNew, false_or, bne_iff_ne, ne_eq,
      not_not] at lost
    rw [if_pos lost, parent_setParent _ _ _ fun other same => ?_, if_pos rfl, ite_self]
    rw [isNumber] at same
    cases same
    exact stays ▸ Nat.lt_of_lt_of_le inside frame.size

/-- The nodes come in the place of the child if they fit there. -/
theorem Replaceable.exists_replaced (replaceable : tree.Replaceable parent target replacements)
    (child : target ∈ tree.children parent)
    (fits : ∀ holder : Outline, tree.Shows holder → holder.ref = parent →
      ((parts holder.kind).map Term.ref).Nodup → ∀ content ∈ holder.kind.slots,
        FitsInto target (replacements.map tree.outline) listsOnly content) :
    ∃ after, editChild parent target replacements listsOnly tree = (true, after) ∧
      Replaced tree after parent target replacements := by
  obtain ⟨whole, holder, part, program, within, held, rfl, rfl, frame, prepares⟩ :=
    replaceable.exists_prepares child
  have shown : whole.All tree.Shows := frame.keeps.shown program.stands.shown
  have stored : tree.Stored := frame.stored program.stored
  have shows : tree.Shows holder := all_iff_subterms.1 shown holder within
  have roots : (replacements.map tree.outline).map Term.ref = replacements := by
    simp [Function.comp_def]
  have standsHolder := program.stands.subterm within
  have once : (holder.children.map Term.ref).Nodup :=
    standsHolder.children.1.once.sublist (roots_sublist holder.children)
  have fitting := fits holder shows rfl once
  obtain ⟨after, edited, edits, reshapes, -⟩ :=
    prepares.editChild program.stands stored within held fitting
  rw [roots] at edited
  have isProgram := program.reshape within reshapes
  rw [swap_splice program.stands.once within held] at isProgram
  have outline : tree.outline tree.root = whole := by
    have length := program.stands.length_le
    rw [setParent_size] at length
    rw [← setParent_root tree part.ref holder.ref, ← program.root]
    exact outlineWithin_eq shown (Nat.le_succ_of_le length)
  have size : after.size = tree.size := by
    rw [← @size_editChild tree holder.ref part.ref replacements listsOnly, edited]
  refine ⟨after, edited, isProgram.wellFormed, ?_, size, ?_, ?_, ?_⟩
  · rw [isProgram.outline_root, outline]
  · intro ref other
    by_cases hasRef : tree.HasRef ref
    · exact edits.node_eq hasRef (by simpa using other)
    · rw [node_eq_missing hasRef, node_eq_missing fun later => hasRef (later.mono size.le)]
  · intro ref notNew other
    by_cases hasRef : tree.HasRef ref
    · obtain ⟨number, inside, rfl⟩ := hasRef
      by_cases isChild : some number ∈
        (parts (Term.splice part.ref (replacements.map tree.outline) holder.kind)).map Term.ref
      · obtain ⟨child, member, isRef⟩ := List.mem_map.1 isChild
        have link := reshapes.stands.adopted.here child member
        rcases mem_parts_splice fitting member with isNew | ⟨isOld, -⟩
        · exact absurd (List.mem_map_of_mem isNew) (roots.symm ▸ isRef ▸ notNew)
        · have was := program.stands.parent within isOld
          rw [isRef] at link was
          rw [link, ref_node,
            frame.parents number (by simpa using inside) (by simpa using other), was]
          rfl
      · exact edits.parents number inside fun moved => (List.mem_cons.1 moved).elim other isChild
    · rw [parent_eq_none stored hasRef,
        parent_eq_none (isProgram.stored) fun later => hasRef (later.mono size.le)]
  · intro notNew
    have stands {child : Outline} (isChild : child ∈ holder.children) : tree.HasRef child.ref :=
      (all_iff_subterms.1 shown child (subterms_child within isChild)).hasRef
    have dropped := parent_editChild stored shows (List.mem_map_of_mem held) (fun _ => stands)
      (fun term member => (prepares.stands.each term member).hasRef (ref_mem_refs term)) fitting
      (roots.symm ▸ notNew)
    rwa [roots, edited] at dropped

theorem listItems_subset_slotChildren
    (slot : NodeSlot) : tree.listItems slot ⊆ tree.slotChildren slot := by
  rcases slot with child | range
  · exact List.nil_subset _
  · exact List.Subset.refl _

/-- What is in a list of a node is in no single position of it where no node is in two positions. -/
theorem ref_ne_of_listed {slots : List NodeSlot}
    {contents : List (Slot (Option Outline) (List Outline))}
    (holds : List.Forall₂ tree.Holds slots contents)
    (once : ((contents.flatMap Slot.terms).map Term.ref).Nodup)
    (inList : target ∈ slots.flatMap tree.listItems) {child : Outline}
    (member : .one (some child) ∈ contents) :
    child.ref ≠ target := by
  rintro rfl
  induction holds with
  | nil => cases member
  | @cons slot content slots contents first others ih =>
    rw [List.flatMap_cons, List.map_append, List.nodup_append'] at once
    obtain ⟨-, onceOthers, apart⟩ := once
    rw [List.flatMap_cons, List.mem_append] at inList
    rcases inList with here | later
    · have inContent := first.slotChildren ▸ listItems_subset_slotChildren slot here
      rcases List.mem_cons.1 member with rfl | behind
      · rcases slot with single | range
        · cases here
        · exact first
      · exact apart inContent (List.mem_map_of_mem (List.mem_flatMap.2 ⟨_, behind, by simp⟩))
    · rcases List.mem_cons.1 member with rfl | behind
      · obtain ⟨slot, isSlot, inside⟩ := List.mem_flatMap.1 later
        refine apart (a := child.ref) (by simp) ?_
        rw [← flatMap_slotChildren others]
        exact List.mem_flatMap.2 ⟨slot, isSlot, listItems_subset_slotChildren slot inside⟩
      · exact ih onceOthers behind later

/-- A child position is left alone where the child is in no list there, and it is no single position
for the child or only lists are to be changed. -/
theorem substituteSlot_eq_none {slot : NodeSlot} (absent : target ∉ tree.listItems slot)
    (single : listsOnly = true ∨ slot ≠ .one target) :
    substituteSlot target replacements listsOnly slot tree = (none, tree) := by
  unfold substituteSlot
  split
  · rename_i child
    have other : ¬(child = target ∧ listsOnly = false) := by
      rintro ⟨rfl, rfl⟩
      exact single.elim nofun fun differs => differs rfl
    split
    · simp [other]
    · rfl
  · rename_i range
    have outside : (tree.items range).contains target = false := by simpa [listItems] using absent
    dsimp only
    rw [if_neg (by simpa using outside)]

/-- Replacing a child, and splicing nodes into the place of a child in a list, put the nodes in the
place of the child. Where the node is no such child they change nothing. -/
theorem replaceChild_spliceChild (tree : Tree) {parent target : Ref} (present : target ≠ none) :
    (∀ replacement, target ∈ tree.children parent → tree.Replaceable parent target [replacement] →
      ∃ after, replaceChild parent target replacement tree = (true, after) ∧
        Replaced tree after parent target [replacement]) ∧
    (∀ replacement, target ∉ tree.children parent →
      replaceChild parent target replacement tree = (false, tree)) ∧
    (∀ replacements, target ∈ tree.listed parent → tree.Replaceable parent target replacements →
      ∃ after, spliceChild parent target replacements tree = (true, after) ∧
        Replaced tree after parent target replacements) ∧
    ∀ replacements, target ∉ tree.listed parent →
      spliceChild parent target replacements tree = (false, tree) := by
  refine ⟨fun replacement child replaceable => ?_, fun replacement absent => ?_,
    fun replacements inList replaceable => ?_, fun replacements absent => ?_⟩
  · exact replaceable.exists_replaced child fun holder _ _ _ content _ => fitsInto_single _ content
  · refine editChild_eq_false (mapM_tried_eq fun slot member =>
      substituteSlot_eq_none (fun inside => absent ?_) (.inr ?_)) (by simp)
    · exact List.mem_flatMap.2 ⟨slot, member, listItems_subset_slotChildren slot inside⟩
    · rintro rfl
      obtain ⟨number, rfl⟩ := Option.ne_none_iff_exists'.1 present
      exact absent (List.mem_flatMap.2 ⟨_, member, .head _⟩)
  · refine replaceable.exists_replaced ?_
      fun holder shows same once content member child isOne here => ?_
    · obtain ⟨slot, member, inside⟩ := List.mem_flatMap.1 inList
      exact List.mem_flatMap.2 ⟨slot, member, listItems_subset_slotChildren slot inside⟩
    · subst same isOne
      exact absurd here (ref_ne_of_listed shows.depicts.slots once inList member)
  · exact editChild_eq_false (mapM_tried_eq fun slot member => substituteSlot_eq_none (fun inside =>
      absent (List.mem_flatMap.2 ⟨slot, member, inside⟩)) (.inl rfl)) (by simp)

end

/-- In a call statement, the argument gets parentheses that are around it already, and the statement
is dropped. -/
theorem replaceChild_spliceChild_call : ∃ tree, Tree.parse 0 "f(a);" = .ok tree ∧
    (∃ after, replaceChild (some 2) (some 1) (some 6) (alloc (.paren (some 1)) .nowhere tree).2
      = (true, after) ∧
      Replaced (alloc (.paren (some 1)) .nowhere tree).2 after (some 2) (some 1) [some 6]) ∧
    (∃ after, spliceChild (some 5) (some 4) [] tree = (true, after) ∧
      Replaced tree after (some 5) (some 4) []) ∧
    replaceChild (some 3) (some 1) (some 0) tree = (false, tree) ∧
    spliceChild (some 2) (some 1) [some 0] tree = (false, tree) := by
  have computed :
      (Tree.parse 0 "f(a);").toOption.any (fun tree => tree.attached.contains (some 2) &&
      tree.attached.contains (some 5) && tree.children (some 2) == [some 1] &&
        tree.children (some 3) == [some 0, some 2] &&
      tree.listed (some 5) == [some 4] && tree.children (some 5) == [some 4] &&
        tree.listed (some 2) == [] &&
      tree.size == 6 && (alloc (.paren (some 1)) .nowhere tree).2.children (some 2) == [some 1])
        = true := by
    decide +kernel
  obtain ⟨tree, parsed, facts⟩ := exists_of_any computed
  simp only [Bool.and_eq_true, beq_iff_eq, List.contains_iff_mem] at facts
  obtain ⟨⟨⟨⟨⟨⟨⟨⟨argument, unit⟩, value⟩, call⟩, statement⟩, member⟩, noList⟩, size⟩, wrapped⟩ :=
    facts
  obtain ⟨term, outline, -, program, -⟩ := exists_isProgram_of_parse parsed
  have wellFormed := program.wellFormed
  have replaceable :=
    @wellFormed.replaceable_paren tree (some 2) (some 1) argument (by simp [value]) .nowhere
  rw [show (alloc (.paren (some 1)) .nowhere tree).1
    = some 6 from congrArg some size] at replaceable
  refine ⟨tree, parsed, ?_, ?_, ?_, ?_⟩
  · exact (replaceChild_spliceChild _ (by simp)).1 _ (by simp [wrapped]) replaceable
  · exact (replaceChild_spliceChild _ (by simp)).2.2.1 _ (by simp [statement])
      (wellFormed.replaceable unit (by simp [member]) .nil (by simp))
  · exact (replaceChild_spliceChild _ (by simp)).2.1 _ (by simp [call])
  · exact (replaceChild_spliceChild _ (by simp)).2.2.2 _ (by simp [noList])

end Tree

end Refactory
