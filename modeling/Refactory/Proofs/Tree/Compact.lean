import Refactory.Proofs.Tree.Mirror

/-!
# Trees without detached nodes

The tree of a term has a node for each part of the term and no other (`Tree.size_ofTerm`). So it is
mirrored in every well-formed tree of the same shape (`Tree.exists_mirrors`), whatever detached
nodes and stale links that one holds: two trees of one shape are images of one tree.
-/
namespace Refactory

namespace Term

variable {α β : Type}

/-- The subterms of a mapped term are its subterms, mapped. -/
theorem subterms_map (f : α → β)
    (term : Term α) : (term.map f).subterms = term.subterms.map (map f) := by
  induction term using Term.induction with
  | step note form ih =>
    rw [subterms_eq, children_map, subterms_eq (.node note form), List.map_cons, List.flatMap_map,
      List.map_flatMap]
    exact congrArg _ (List.flatMap_congr fun child member => ih child member)

/-- Terms of one shape have as many parts. -/
theorem length_subterms_of_shape {left : Term α} {right : Term β}
    (same : left.shape = right.shape) :
    left.subterms.length = right.subterms.length := by
  have count := congrArg (List.length ∘ subterms) same
  simpa only [Function.comp_apply, shape, subterms_map, List.length_map] using count

/-- The notes of a term in pre-order. -/
def notes (term : Term α) : List α := term.subterms.map note

theorem notes_node (here : α)
    (form : Form α) : (node here form).notes = here :: (parts form).flatMap notes := by
  rw [notes, subterms_node, List.map_cons, List.map_flatMap]
  rfl

theorem notes_map (f : α → β) (term : Term α) : (term.map f).notes = term.notes.map f := by
  rw [notes, subterms_map, notes, List.map_map, List.map_map]
  exact List.map_congr_left fun part _ => note_map f part

/-- Lists of terms of the same shapes with the same notes are the same if this is so of each of the
terms. -/
theorem eq_of_shapes_of_notes {terms others : List (Term α)}
    (each : ∀ term ∈ terms, ∀ other : Term α, term.shape = other.shape → term.notes = other.notes →
      term = other) (shapes : terms.map shape = others.map shape)
    (same : terms.flatMap notes = others.flatMap notes) :
    terms = others := by
  induction terms generalizing others with
  | nil => exact (List.map_eq_nil_iff.1 shapes.symm).symm
  | cons term terms ih =>
    obtain ⟨other, others, rfl, first, rest⟩ := List.map_eq_cons_iff.1 shapes.symm
    rw [List.flatMap_cons, List.flatMap_cons] at same
    have lengths : term.notes.length = other.notes.length := by
      rw [notes, notes, List.length_map, List.length_map, length_subterms_of_shape first]
    obtain ⟨here, below⟩ := List.append_inj same lengths
    rw [each term (.head _) other first.symm here,
      ih (fun term member => each term (.tail _ member)) rest.symm below]

/-- Child positions that hold the same terms in the same way are the same. -/
theorem slots_eq_of_terms (f : Term α → Term β)
    {slots others : List (Slot (Option (Term α)) (List (Term α)))}
    (alike : slots.map (mapSlot f) = others.map (mapSlot f))
    (same : slots.flatMap Slot.terms = others.flatMap Slot.terms) : slots = others := by
  induction slots generalizing others with
  | nil => exact (List.map_eq_nil_iff.1 alike.symm).symm
  | cons slot slots ih =>
    obtain ⟨other, others, rfl, first, rest⟩ := List.map_eq_cons_iff.1 alike.symm
    have terms (slot : Slot (Option (Term α)) (List (Term α))) :
        (mapSlot f slot).terms.length = slot.terms.length := by
      rcases slot with (_ | child) | children <;> simp [mapSlot, Slot.terms]
    rw [List.flatMap_cons, List.flatMap_cons] at same
    obtain ⟨here, below⟩ := List.append_inj same (by rw [← terms slot, ← first, terms])
    rw [ih rest.symm below]
    rcases slot with (_ | child) | children <;> rcases other with (_ | child') | children' <;>
      simp_all [mapSlot, Slot.terms]

/-- A term is made of its shape and its notes in pre-order. -/
theorem eq_of_shape_of_notes {left right : Term α} (shapes : left.shape = right.shape)
    (same : left.notes = right.notes) :
    left = right := by
  induction left using Term.induction generalizing right with
  | step note form ih =>
    rcases right with ⟨note', form'⟩
    rw [notes_node, notes_node] at same
    obtain ⟨rfl, same⟩ := List.cons.inj same
    rw [shape_node, shape_node, mapForm_eq, mapForm_eq] at shapes
    have forms : mapChildren shape form = mapChildren shape form' := (Term.node.inj shapes).2
    have parts : parts form = parts form' := by
      refine eq_of_shapes_of_notes (fun child member other => ih child member) ?_
        (List.cons.inj same).2
      rw [← parts_mapChildren, ← parts_mapChildren, forms]
    have skeletons : form.skeleton = form'.skeleton := by
      have same := congrArg Kind.skeleton forms
      rwa [mapChildren, mapChildren, Kind.skeleton_withSlots, Kind.skeleton_withSlots] at same
    have slots : form.slots = form'.slots := by
      refine slots_eq_of_terms shape ?_ parts
      rw [← slots_mapChildren, ← slots_mapChildren, forms]
    rw [Kind.eq_withSlots_of_skeleton none [] skeletons.symm, slots, Kind.withSlots_slots]

end Term

namespace Tree

open Term

/-! ### Storing a term -/

/-- Storing a form adds a node for each part of each child if storing the children does. -/
theorem size_storeForm {form : Form Span}
    (some : ∀ child, .one child ∈ form.slots → ∀ tree : Tree,
      (storeSome child tree).2.size = tree.size + (child.toList.flatMap subterms).length)
    (all : ∀ children, .many children ∈ form.slots → ∀ tree : Tree, (storeAll children tree).2.size
        = tree.size + (children.flatMap subterms).length) (tree : Tree) :
    (storeForm form tree).2.size = tree.size + ((parts form).flatMap subterms).length := by
  have size (refs : List Ref) (tree : Tree) : (allocList refs tree).2.size = tree.size := rfl
  have bind {α β : Type} (edit : Edit α) (next : α → Edit β) (tree : Tree) :
      (edit >>= next) tree = next (edit tree).1 (edit tree).2 := rfl
  have pure {α : Type} (value : α)
      (tree : Tree) : (Pure.pure value : Edit α) tree = (value, tree) := rfl
  cases form <;>
    simp only [Kind.slots, List.mem_cons, List.not_mem_nil, or_false, Slot.one.injEq,
      Slot.many.injEq, reduceCtorEq,
      false_or, forall_eq_or_imp, forall_eq, false_imp_iff, implies_true] at some all <;>
    simp only [storeForm, parts, Kind.slots, Slot.terms, List.flatMap_cons, List.flatMap_nil,
      List.flatMap_append, List.length_append, List.length_nil, List.append_nil, bind, pure, size,
      some, all, Nat.add_assoc, Nat.add_zero]

/-- Storing a term adds a node for each part of it. -/
theorem size_store (term : SourceTerm) (tree : Tree) :
    (store term tree).2.size = tree.size + term.subterms.length := by
  induction term using Term.induction generalizing tree with
  | step span form ih =>
    have some (child : Option SourceTerm) (member : .one child ∈ form.slots) (tree : Tree) :
        (storeSome child tree).2.size = tree.size + (child.toList.flatMap subterms).length := by
      cases child with
      | none => rfl
      | some child => simpa [storeSome] using ih child (mem_parts.2 ⟨_, member, by simp⟩) tree
    have all (children : List SourceTerm) (member : .many children ∈ form.slots) (tree : Tree) :
        (storeAll children tree).2.size = tree.size + (children.flatMap subterms).length := by
      have each : ∀ child ∈ children, child ∈ parts form :=
        fun child inside => mem_parts.2 ⟨_, member, inside⟩
      clear member some
      induction children generalizing tree with
      | nil => rfl
      | cons child children ihAll =>
        have first := ih child (each child (.head _)) tree
        have others := ihAll (store child tree).2 fun other inside => each other (.tail _ inside)
        change (storeAll children (store child tree).2).2.size = _
        rw [others, first, List.flatMap_cons, List.length_append, Nat.add_assoc]
    have below := size_storeForm some all tree
    have alloc (kind : NodeKind) (tree : Tree) : (alloc kind span tree).2.size = tree.size + 1 := by
      simp [Tree.alloc, Tree.size]
    change (Tree.alloc (storeForm form tree).1 span (storeForm form tree).2).2.size = _
    rw [alloc, below, subterms_node, List.length_cons, Nat.add_assoc]

/-- The tree of a term has a node for each part of the term, and no other. -/
theorem size_ofTerm (clock : Nat)
    (term : SourceTerm) : (ofTerm clock term).size = term.subterms.length := by
  have stored := size_store term (.empty clock)
  have setRoot (ref : Ref) (tree : Tree) : (setRoot ref tree).2.size = tree.size := by
    simp [Tree.setRoot, Tree.size]
  change (Tree.setRoot (store term (.empty clock)).1 (store term (.empty clock)).2).2.size = _
  rw [setRoot, stored]
  simp [Tree.empty, Tree.size]

/-- The tree of a term has the shape of the term. -/
theorem shape_ofTerm (clock : Nat)
    (term : SourceTerm) : (ofTerm clock term).shape = term.shape := by
  obtain ⟨outline, program, records⟩ := exists_isProgram_ofTerm clock term
  rw [Tree.shape, program.outline_root, ← records, shape_map]

/-! ### Programs of one shape -/

/-- The numbers below a bound get other numbers below another bound, and all others go on behind
those. -/
theorem exists_renumbering {olds news : List Nat} {size size' : Nat} (onceOld : olds.Nodup)
    (onceNew : news.Nodup)
    (lengths : olds.length = news.length) (all : ∀ number, number ∈ olds ↔ number < size)
    (below : ∀ number ∈ news, number < size') : ∃ move : Nat → Nat, Function.Injective move ∧
      (∀ count, move (size + count) = size' + count) ∧ news = olds.map move := by
  have position {number : Nat} (inside : number ∈ olds) : olds.idxOf number < news.length :=
    lengths ▸ List.idxOf_lt_length_iff.2 inside
  refine ⟨fun number => if inside : number ∈ olds then news.get ⟨olds.idxOf number, position inside⟩
    else size' + (number - size), fun left right same => ?_, fun count => ?_, ?_⟩
  · by_cases insideLeft : left ∈ olds <;> by_cases insideRight : right ∈ olds
    · simp only [dif_pos insideLeft, dif_pos insideRight, List.get_eq_getElem,
        onceNew.getElem_inj_iff] at same
      exact List.idxOf_inj insideLeft |>.1 same
    · have less := below _ (news.get_mem ⟨_, position insideLeft⟩)
      simp only [dif_pos insideLeft, dif_neg insideRight] at same
      omega
    · have less := below _ (news.get_mem ⟨_, position insideRight⟩)
      simp only [dif_neg insideLeft, dif_pos insideRight] at same
      omega
    · simp only [dif_neg insideLeft, dif_neg insideRight] at same
      rw [all] at insideLeft insideRight
      omega
  · have outside : size + count ∉ olds := fun inside => by
      have less := (all _).1 inside
      omega
    simp only [dif_neg outside]
    omega
  · refine List.ext_getElem (by simp [lengths]) fun place inNew inMap => ?_
    have inOld : place < olds.length := lengths ▸ inNew
    simp only [List.getElem_map, List.getElem_mem, dif_pos, List.get_eq_getElem,
      onceOld.idxOf_getElem]

section

variable {small tree : Tree} {compact whole : Outline}

/-- The places of a program are the numbers of different nodes. -/
theorem IsProgram.exists_numbers (program : tree.IsProgram whole) :
    ∃ numbers : List Nat, whole.refs = numbers.map some ∧ numbers.Nodup ∧
    ∀ number ∈ numbers, number < tree.size := by
  have hasRef : ∀ ref ∈ whole.refs, tree.HasRef ref := fun _ => program.stands.hasRef
  have once := program.stands.once
  obtain ⟨numbers, same⟩ : ∃ numbers : List Nat, whole.refs = numbers.map some := by
    generalize whole.refs = refs at hasRef
    clear once
    induction refs with
    | nil => exact ⟨[], rfl⟩
    | cons ref refs ih =>
      obtain ⟨⟨number, -, rfl⟩, others⟩ := List.forall_mem_cons.1 hasRef
      obtain ⟨numbers, rfl⟩ := ih others
      exact ⟨number :: numbers, rfl⟩
  rw [same] at hasRef once
  refine ⟨numbers, same, once.of_map _, fun number member => ?_⟩
  obtain ⟨_, less, ⟨⟩⟩ := hasRef (some number) (List.mem_map_of_mem member)
  exact less

/-- Every node is in a program that has as many parts as there are nodes. -/
theorem IsProgram.mem_refs_of_lt (program : small.IsProgram compact)
    (all : small.size = compact.subterms.length)
    {number : Nat} (less : number < small.size) : some number ∈ compact.refs := by
  obtain ⟨numbers, same, once, below⟩ := program.exists_numbers
  have count := congrArg List.length same
  rw [refs, List.length_map, List.length_map] at count
  have inside : numbers ⊆ List.range small.size :=
    fun other member => List.mem_range.2 (below other member)
  have perm := (once.subperm inside).perm_of_length_le (by simp [all, count])
  rw [same]
  exact List.mem_map_of_mem (perm.mem_iff.2 (List.mem_range.2 less))

/-- The nodes of a program that has no others get the numbers that they have in another program of
the shape. -/
theorem exists_move (program : small.IsProgram compact) (all : small.size = compact.subterms.length)
    (image : tree.IsProgram whole) (same : compact.shape = whole.shape) : ∃ move : Nat → Nat,
      Function.Injective move ∧ (∀ count, move (small.size + count) = tree.size + count) ∧
      whole.map Place.ref = compact.map fun place => place.ref.map move := by
  obtain ⟨olds, isOlds, onceOld, belowOld⟩ := program.exists_numbers
  obtain ⟨news, isNews, onceNew, belowNew⟩ := image.exists_numbers
  have count := congrArg List.length isOlds
  have countImage := congrArg List.length isNews
  rw [refs, List.length_map, List.length_map] at count countImage
  have lengths : olds.length = news.length := by
    rw [← count, ← countImage, length_subterms_of_shape same]
  have every (number : Nat) : number ∈ olds ↔ number < small.size := by
    refine ⟨belowOld number, fun less => ?_⟩
    have inside := program.mem_refs_of_lt all less
    rw [isOlds] at inside
    obtain ⟨_, inside, ⟨⟩⟩ := List.mem_map.1 inside
    exact inside
  obtain ⟨move, injective, fresh, moved⟩ :=
    exists_renumbering onceOld onceNew lengths every belowNew
  refine ⟨move, injective, fresh, eq_of_shape_of_notes ?_ ?_⟩
  · rw [shape_map, shape_map, same]
  · have notes (term : Outline) : term.notes.map Place.ref = term.refs := by
      rw [Term.notes, refs, List.map_map]
      rfl
    rw [notes_map, notes_map, notes whole, isNews, moved]
    calc (olds.map move).map some
        _ = (olds.map some).map (Option.map move) := by simp
        _ = (compact.notes.map Place.ref).map (Option.map move) := by rw [notes, isOlds]
        _ = compact.notes.map fun place => place.ref.map move := List.map_map

/-- Child positions that refer to terms and to the same terms under other numbers correspond. -/
theorem MirrorsSlot.of_holds {move : Nat → Nat} {slot slot' : NodeSlot}
    {content content' : Slot (Option Outline) (List Outline)} (holds : small.Holds slot content)
    (holds' : tree.Holds slot' content') (same : mapSlot (map Place.ref) content'
      = mapSlot (map fun place => place.ref.map move) content) :
    MirrorsSlot move small tree slot slot' := by
  have refs {term term' : Outline}
      (same : term'.map Place.ref = term.map fun place => place.ref.map move) :
      term'.ref = term.ref.map move := by
    have notes := congrArg note same
    rwa [note_map, note_map] at notes
  rcases content with child | children <;> rcases content' with child' | children' <;>
    simp only [mapSlot, Slot.one.injEq, Slot.many.injEq, reduceCtorEq] at same
  · rcases slot with _ | range <;> rcases slot' with _ | range'
    · obtain ⟨rfl, -⟩ := holds
      obtain ⟨rfl, -⟩ := holds'
      rcases child with _ | child <;> rcases child' with _ | child'
      · rfl
      · cases same
      · cases same
      · exact refs (Option.some.inj same)
    · exact holds'.elim
    · exact holds.elim
    · exact holds.elim
  · rcases slot with _ | range <;> rcases slot' with _ | range'
    · exact holds.elim
    · exact holds.elim
    · exact holds'.elim
    · have items : children'.map Term.ref = (children.map Term.ref).map (Option.map move) := by
        rw [List.map_map, ← List.forall₂_eq_eq_eq, List.forall₂_map_left_iff,
          List.forall₂_map_right_iff]
        rw [← List.forall₂_eq_eq_eq, List.forall₂_map_left_iff, List.forall₂_map_right_iff] at same
        exact same.imp fun _ _ => refs
      have length := congrArg List.length items
      rw [← holds.1, ← holds'.1, List.length_map, length_items holds.2,
        length_items holds'.2] at length
      exact ⟨by rw [holds.1, holds'.1, items], length, holds.2, holds'.2⟩

/-- Kinds of corresponding parts of two programs correspond. -/
theorem MirrorsKind.of_depicts {move : Nat → Nat} {kind kind' : NodeKind} {term other : Outline}
    (depicts : small.Depicts kind term.kind) (depicts' : tree.Depicts kind' other.kind)
    (same : other.map Place.ref = term.map fun place => place.ref.map move) :
    MirrorsKind move small tree kind kind' := by
  rcases term with ⟨place, form⟩
  rcases other with ⟨place', form'⟩
  have forms : mapChildren (map Place.ref) form'
      = mapChildren (map fun place => place.ref.map move) form := by
    rw [map, map, mapForm_eq, mapForm_eq] at same
    exact (Term.node.inj same).2
  have skeleton : form'.skeleton = form.skeleton := by
    have same := congrArg Kind.skeleton forms
    rwa [mapChildren, mapChildren, Kind.skeleton_withSlots, Kind.skeleton_withSlots] at same
  have slots : List.Forall₂ (fun content' content => mapSlot (map Place.ref) content'
      = mapSlot (map fun place => place.ref.map move) content) form'.slots form.slots := by
    have same := congrArg Kind.slots forms
    rwa [slots_mapChildren, slots_mapChildren, ← List.forall₂_eq_eq_eq, List.forall₂_map_left_iff,
      List.forall₂_map_right_iff] at same
  refine ⟨?_, depicts'.skeleton.trans (skeleton.trans depicts.skeleton.symm)⟩
  have here := depicts.slots
  have there := depicts'.slots
  change List.Forall₂ _ _ form.slots at here
  change List.Forall₂ _ _ form'.slots at there
  generalize kind.slots = slots, kind'.slots = slots', form.slots = contents,
    form'.slots = contents' at *
  induction here generalizing slots' contents' with
  | nil =>
    cases slots
    cases there
    exact .nil
  | cons holds _ ih =>
    cases slots with | cons same others => ?_
    cases there with | cons holds' there => ?_
    exact .cons (.of_holds holds holds' same) (ih _ _ others there)

/-- A program without other nodes is mirrored in every program of the same shape. -/
theorem IsProgram.exists_mirrors (program : small.IsProgram compact)
    (all : small.size = compact.subterms.length) (image : tree.IsProgram whole)
    (same : compact.shape = whole.shape) : ∃ move, small.Mirrors move tree := by
  obtain ⟨move, injective, fresh, moved⟩ := exists_move program all image same
  have part {term : Outline} (within : term ∈ compact.subterms) :
      ∃ other ∈ whole.subterms, other.map Place.ref = term.map fun place => place.ref.map move := by
    have inside : (term.map fun place => place.ref.map move) ∈ (whole.map Place.ref).subterms := by
      rw [moved, subterms_map]
      exact List.mem_map_of_mem within
    rw [subterms_map] at inside
    exact List.mem_map.1 inside
  have refs {term other : Outline}
      (same : other.map Place.ref = term.map fun place => place.ref.map move) :
      other.ref = term.ref.map move := by
    have notes := congrArg note same
    rwa [note_map, note_map] at notes
  have outside {number : Nat} (more : ¬ number < small.size) : ¬ move number < tree.size := by
    have moved := fresh (number - small.size)
    rw [Nat.add_sub_cancel' (Nat.le_of_not_lt more)] at moved
    omega
  have size : small.size ≤ tree.size := by
    rw [all, length_subterms_of_shape same]
    exact image.stands.length_le
  refine ⟨move, injective, fresh, size, ?_, ?_, ?_, program.stored.aligned, image.stored.aligned⟩
  · rintro (_ | number)
    · exact ⟨.nil, rfl⟩
    · by_cases less : number < small.size
      · obtain ⟨term, within, isTerm⟩ := mem_refs.1 (program.mem_refs_of_lt all less)
        obtain ⟨other, inside, alike⟩ := part within
        rw [← isTerm, ← refs alike]
        exact .of_depicts (program.stands.shows within).depicts
          (image.stands.shows inside).depicts alike
      · have missing {tree : Tree} {number : Nat}
            (more : ¬ number < tree.size) : tree.kind (some number) = .null := by
          by_contra other
          obtain ⟨_, inside, ⟨⟩⟩ := hasRef_of_kind_ne other
          exact more inside
        rw [missing less, Option.map_some, missing (outside less)]
        exact ⟨.nil, rfl⟩
  · rintro (_ | number)
    · rfl
    · by_cases less : number < small.size
      · obtain ⟨term, within, isTerm⟩ := mem_refs.1 (program.mem_refs_of_lt all less)
        obtain ⟨other, inside, alike⟩ := part within
        rw [← isTerm, ← refs alike]
        rcases program.parent_cases within with ⟨rfl, top⟩ | ⟨holder, held, isChild, up⟩
        · rw [top, refs alike, ← refs moved, image.root, image.top]
          rfl
        · obtain ⟨above, isAbove, sameAbove⟩ := part held
          have isLower :
              (term.map fun place => place.ref.map move) ∈ (above.map Place.ref).children := by
            rw [sameAbove, children_map]
            exact List.mem_map_of_mem isChild
          rw [children_map] at isLower
          obtain ⟨lower, isLower, sameLower⟩ := List.mem_map.1 isLower
          rw [up, refs alike, ← refs sameLower, image.stands.parent isAbove isLower, refs sameAbove]
      · have missing {tree : Tree} {number : Nat} (aligned : tree.parents.size = tree.size)
          (more : ¬ number < tree.size) :
            tree.parent (some number) = none := by
          simp [Tree.parent, aligned, Nat.le_of_not_lt more]
        rw [missing program.stored.aligned less, Option.map_some,
          missing image.stored.aligned (outside less)]
        rfl
  · rw [← image.root, ← program.root]
    exact refs moved

/-- Two well-formed trees of one shape are images of one program. -/
theorem exists_compact {left right : Tree} (wellFormed : left.WellFormed)
    (wellFormedRight : right.WellFormed) (same : left.shape = right.shape) :
    ∃ (small : Tree) (compact : Outline) (move move' : Nat → Nat),
      small.IsProgram compact ∧ small.Mirrors move left ∧ small.Mirrors move' right := by
  obtain ⟨outline, program⟩ := wellFormed_iff.1 wellFormed
  obtain ⟨outlineRight, programRight⟩ := wellFormed_iff.1 wellFormedRight
  have shapes : outline.shape = outlineRight.shape := by
    rwa [Tree.shape, program.outline_root, Tree.shape, programRight.outline_root] at same
  obtain ⟨compact, isProgram, records⟩ := exists_isProgram_ofTerm 0 (outline.map Place.span)
  have shape : compact.shape = outline.shape := by
    rw [← shape_map Place.span, records, shape_map]
  have all : (ofTerm 0 (outline.map Place.span)).size = compact.subterms.length := by
    rw [size_ofTerm, ← records, subterms_map, List.length_map]
  obtain ⟨move, mirrors⟩ := isProgram.exists_mirrors all program shape
  obtain ⟨move', mirrors'⟩ := isProgram.exists_mirrors all programRight (shape.trans shapes)
  exact ⟨_, compact, move, move', isProgram, mirrors, mirrors'⟩

end

end Tree

end Refactory
