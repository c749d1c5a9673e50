import Refactory.Attempt
import Refactory.Proofs.Tree.Storing

/-!
# Putting terms into places

An edit of a child puts terms that stand elsewhere into the place of a part of a program. What comes
out is the program with the terms in that place (`Tree.editChild_isProgram`), provided that nothing
outside the part was touched before and that the terms bring in nothing from there.
-/
namespace Refactory

variable {after : Tree}

namespace Term

/-- A child position with other terms in the place of a child. A single position takes one term. -/
def spliceSlot (target : Ref) (new : List Outline) :
    Slot (Option Outline) (List Outline) → Slot (Option Outline) (List Outline)
  | .one child => .one (child.map fun term => if term.ref = target then new.headD term else term)
  | .many children => .many (children.flatMap fun term => if term.ref = target then new else [term])

/-- A form with other terms in the place of a child. -/
def splice (target : Ref) (new : List Outline) (form : Form Place) : Form Place :=
  form.withSlots none [] (form.slots.map (spliceSlot target new))

/-- Terms fit into the place of a child where this is in a list, or where they are one term and
single positions are not left out. -/
def FitsInto (target : Ref) (new : List Outline) (listsOnly : Bool)
    (content : Slot (Option Outline) (List Outline)) : Prop :=
  ∀ child, content = .one (some child) → child.ref = target → listsOnly = false ∧
    ∃ term, new = [term]

section

variable {target : Ref} {new : List Outline} {form : Form Place} {listsOnly : Bool}

/-- One term fits into every place. -/
theorem fitsInto_single (term : Outline) (content : Slot (Option Outline) (List Outline)) :
    FitsInto target [term] false content := fun _ _ _ => ⟨rfl, term, rfl⟩

theorem slots_splice : (splice target new form).slots = form.slots.map (spliceSlot target new) := by
  cases form <;> rfl

@[simp] theorem skeleton_splice : (splice target new form).skeleton = form.skeleton :=
  Kind.skeleton_withSlots _ _ _ _

/-- The terms come among the other children where the child was. -/
theorem parts_splice (fits : ∀ content ∈ form.slots, FitsInto target new listsOnly content) :
    parts (splice target new form)
      = (parts form).flatMap fun term => if term.ref = target then new else [term] := by
  rw [parts, parts, slots_splice, List.flatMap_map, List.flatMap_assoc]
  refine List.flatMap_congr fun content member => ?_
  have fits := fits content member
  rcases content with (_ | child) | children
  · rfl
  · by_cases here : child.ref = target
    · obtain ⟨-, term, rfl⟩ := fits child rfl here
      simp [spliceSlot, here]
    · simp [spliceSlot, here]
  · rfl

/-- The terms come between the children on either side of a child that is the only one at its
place. -/
theorem parts_splice_child {front back : List Outline} {part : Outline}
    (fits : ∀ content ∈ form.slots, FitsInto part.ref new listsOnly content)
    (split : parts form = front ++ part :: back)
    (others : ∀ other ∈ front ++ back, other.ref ≠ part.ref) :
    parts (splice part.ref new form) = front ++ new ++ back := by
  have unchanged (list : List Outline) (some : list ⊆ front ++ back) :
      (list.flatMap fun term => if term.ref = part.ref then new else [term]) = list := by
    conv => rhs; rw [← List.flatMap_singleton' list]
    exact List.flatMap_congr fun term member => if_neg (others term (some member))
  rw [parts_splice fits, split, List.flatMap_append, List.flatMap_cons, if_pos rfl,
    unchanged front (by simp), unchanged back (by simp), List.append_assoc]

/-- One term comes in the place of a child as another child does. -/
theorem splice_single (term : Outline) : splice target [term] form
    = mapChildren (fun child => if child.ref = target then term else child) form := by
  have list (children : List Outline) :
      (children.flatMap fun child => if child.ref = target then [term] else [child])
        = children.map fun child => if child.ref = target then term else child := by
    rw [List.map_eq_flatMap]
    refine List.flatMap_congr fun child _ => ?_
    split <;> rfl
  cases form <;> simp [splice, spliceSlot, list]

/-- Other terms among the children of a part are in the place of the child. -/
theorem swap_holder {whole holder part : Outline} (once : whole.refs.Nodup)
    (within : holder ∈ whole.subterms) (held : part ∈ holder.children) (term : Outline) :
    swap holder.ref (.node holder.note (splice part.ref [term] holder.kind)) whole
      = swap part.ref term whole := by
  induction whole using Term.induction with
  | step place form ih =>
    have onceBelow := once
    rw [refs_node] at onceBelow
    obtain ⟨outside, onceBelow⟩ := List.nodup_cons.1 onceBelow
    by_cases here : holder = .node place form
    · subst here
      have placeApart : place.ref ≠ part.ref := fun same =>
        outside (List.mem_flatMap.2 ⟨part, held, same ▸ ref_mem_refs part⟩)
      rw [swap_self, swap_node, if_neg placeApart, Term.note, Term.kind, splice_single]
      congr 1
      refine mapChildren_congr fun child member => ?_
      by_cases same : child = part
      · rw [if_pos (congrArg Term.ref same), same, swap_self]
      · have absent : part.ref ∉ child.refs := fun inside =>
          disjoint_of_nodup onceBelow member held same inside (ref_mem_refs part)
        have other : child.ref ≠ part.ref := fun same => absent (same ▸ ref_mem_refs child)
        rw [if_neg other, swap_of_not_mem absent]
    · obtain ⟨front, child, back, split, inside, apart⟩ := exists_child_of_subterm once within here
      have childMember : child ∈ parts form := by simp [split]
      have partInside := subterms_child inside held
      have placeApart {ref : Ref} (within : ref ∈ child.refs) : place.ref ≠ ref := fun same =>
        outside (List.mem_flatMap.2 ⟨child, childMember, same ▸ within⟩)
      rw [swap_node, swap_node, if_neg (placeApart (mem_refs.2 ⟨holder, inside, rfl⟩)),
        if_neg (placeApart (mem_refs.2 ⟨part, partInside, rfl⟩))]
      congr 1
      refine mapChildren_congr fun other member => ?_
      by_cases same : other = child
      · subst same
        exact ih other member (once.sublist (refs_sublist
          (@child_mem_subterms _ (.node place form) _ member))) inside
      · have disjoint := disjoint_of_nodup onceBelow member childMember same
        rw [swap_of_not_mem fun shared => disjoint shared (mem_refs.2 ⟨holder, inside, rfl⟩),
          swap_of_not_mem fun shared => disjoint shared (mem_refs.2 ⟨part, partInside, rfl⟩)]

end

end Term

namespace Tree

open Term

section

variable {tree : Tree} {target : Ref} {new : List Outline} {listsOnly : Bool}

/-- A child position is edited as the position of the form that it shows. -/
theorem substituteSlot_holds {slot : NodeSlot} {content : Slot (Option Outline) (List Outline)}
    (holds : tree.Holds slot content) (present : target ≠ none)
    (hasNew : ∀ term ∈ new, tree.HasRef term.ref)
    (hasRef : ∀ term ∈ content.terms, tree.HasRef term.ref)
    (fits : FitsInto target new listsOnly content) :
    ∃ result after, substituteSlot target (new.map Term.ref) listsOnly slot tree = (result, after) ∧
      Frame [] [] tree after ∧ after.Holds (result.getD slot) (spliceSlot target new content) ∧
      (result.isSome ↔ ∃ term ∈ content.terms, term.ref = target) := by
  rcases slot with ref | range <;> rcases content with (_ | child) | children
  · obtain rfl : none = ref := holds.1
    refine ⟨none, tree, ?_, .refl tree, holds, by simp⟩
    simp only [substituteSlot]
    split
    · simp [Ne.symm present]
    · rfl
  · obtain rfl : child.ref = ref := holds.1
    by_cases here : child.ref = target
    · obtain ⟨rfl, term, rfl⟩ := fits child rfl here
      refine ⟨some (.one term.ref),
        tree, by simp [substituteSlot, here], .refl tree, ?_, by simp [here]⟩
      obtain ⟨number, -, place⟩ := hasNew term (.head _)
      simp [Holds, spliceSlot, here, place]
    · refine ⟨none, tree, ?_, .refl tree, ?_, by simp [here]⟩
      · simp only [substituteSlot, here]
        split <;> simp
      · simpa [spliceSlot, here] using holds
  · cases holds
  · cases holds
  · cases holds
  · obtain ⟨entries, inside⟩ := holds
    by_cases member : target ∈ children.map Term.ref
    · have same : substitute target (new.map Term.ref) (children.map Term.ref)
          = (children.flatMap fun term => if term.ref = target then new
            else [term]).map Term.ref := by
        rw [substitute, List.flatMap_map, List.map_flatMap]
        refine List.flatMap_congr fun term _ => ?_
        split <;> rfl
      have hasRefs :
          ∀ ref ∈ (children.flatMap fun term => if term.ref = target then new else [term]).map
          Term.ref, tree.HasRef ref := by
        intro ref isRoot
        obtain ⟨term, inList, rfl⟩ := List.mem_map.1 isRoot
        obtain ⟨child, inside, isTerm⟩ := List.mem_flatMap.1 inList
        split at isTerm
        · exact hasNew term isTerm
        · exact List.mem_singleton.1 isTerm ▸ hasRef child inside
      refine ⟨some (.many _), _, ?_, allocList_frame hasRefs,
        allocList_holds _, by simpa using member⟩
      simp only [substituteSlot, entries, List.contains_iff_mem, member, same, if_true]
      rfl
    · have unchanged : (children.flatMap fun term => if term.ref = target then new else [term])
          = children := by
        conv => rhs; rw [← List.flatMap_singleton' children]
        refine List.flatMap_congr fun term inList => if_neg fun here => member ?_
        exact here ▸ List.mem_map_of_mem inList
      refine ⟨none,
        tree, by simp [substituteSlot, entries, member], .refl tree, ?_, by simpa using member⟩
      simpa [spliceSlot, unchanged] using ⟨entries, inside⟩

/-- Edits of the elements of a list are done one after the other. -/
theorem mapM_cons {α β : Type} (edit : α → Edit β) (first : α) (others : List α) (tree : Tree) :
    (first :: others).mapM edit tree = ((edit first tree).1 ::
      (others.mapM edit (edit first tree).2).1, (others.mapM edit (edit first tree).2).2) := by
  rw [List.mapM_cons]
  rfl

/-- A child position with what it is edited to. -/
def tried (target : Ref) (replacements : List Ref) (listsOnly : Bool) (slot : NodeSlot) :
    Edit (NodeSlot × Option NodeSlot) := do
  return (slot, ← substituteSlot target replacements listsOnly slot)

/-- Child positions are edited as those of the form that they show. -/
theorem tried_holds {slots : List NodeSlot}
    {contents : List (Slot (Option Outline) (List Outline))} {tree : Tree}
    (holds : List.Forall₂ tree.Holds slots contents) (present : target ≠ none)
    (hasNew : ∀ term ∈ new, tree.HasRef term.ref)
    (hasRef : ∀ content ∈ contents, ∀ term ∈ content.terms, tree.HasRef term.ref)
    (fits : ∀ content ∈ contents, FitsInto target new listsOnly content) :
    ∃ results after, slots.mapM (tried target (new.map Term.ref) listsOnly) tree =
    (results, after) ∧ Frame [] [] tree after ∧
      List.Forall₂ after.Holds (results.map fun tried => tried.2.getD tried.1)
        (contents.map (spliceSlot target new)) ∧ ((∃ result ∈ results, result.2.isSome) ↔
        ∃ content ∈ contents, ∃ term ∈ content.terms, term.ref = target) := by
  induction slots generalizing tree contents with
  | nil =>
    cases holds
    exact ⟨[], tree, rfl, .refl tree, .nil, by simp⟩
  | cons slot slots ih =>
    cases holds with
    | @cons _ content _ contents first others =>
      obtain ⟨result, middle, edited, grows, holds, found⟩ :=
        substituteSlot_holds first present hasNew
          (hasRef content (.head _)) (fits content (.head _))
      obtain ⟨results, after, editedOthers, growsMore, holdsOthers, foundOther⟩ :=
        ih (others.imp fun _ _ => Holds.of_frame grows)
          (fun term member => (hasNew term member).of_frame grows) (fun other member term inside =>
          (hasRef other (.tail _ member) term inside).of_frame grows)
          (fun other member => fits other (.tail _ member))
      have first : tried target (new.map Term.ref) listsOnly slot tree = ((slot, result), middle) :=
        congrArg (fun edited : Option NodeSlot × Tree => ((slot, edited.1), edited.2)) edited
      refine ⟨(slot, result) :: results, after, ?_, ?_, ?_, ?_⟩
      · rw [mapM_cons, first, editedOthers]
      · exact grows.grow growsMore
      · exact .cons (holds.of_frame growsMore) holdsOthers
      · simp [found, foundOther]

/-- Positions that show the positions of a form before and after a splice are of the same sorts. -/
theorem alike_of_holds {before : Tree} {slots slots' : List NodeSlot}
    {contents : List (Slot (Option Outline) (List Outline))}
    (holds : List.Forall₂ before.Holds slots contents)
    (holds' : List.Forall₂ after.Holds slots' (contents.map (spliceSlot target new))) :
    List.Forall₂ Slot.Alike slots slots' := by
  induction holds generalizing slots' with
  | nil =>
    cases holds'
    exact .nil
  | @cons slot content _ _ first _ ih =>
    cases holds' with
    | @cons slot' _ _ _ first' others' =>
      refine .cons ?_ (ih others')
      rcases slot with ref | range <;> rcases content with child | children <;>
        rcases slot' with ref' | range'
      · exact .one
      · cases first'
      all_goals first | (cases first; done) | skip
      · cases first'
      · exact .many

/-- The tree after the link of a node is dropped where it leads to a parent that the node has
lost. -/
def dropLink (parent target : Ref) (replacements : List Ref) (tree : Tree) : Tree :=
  if replacements.contains target || tree.parent target != parent then tree
  else tree.setParent target none

/-- An edit tries all child positions, and where one has the child, the parent gets another kind and
the link of the child is looked after. -/
theorem editChild_apply (parent target : Ref) (replacements : List Ref) (listsOnly : Bool)
    (tree : Tree) :
    editChild parent target replacements listsOnly tree =
      let edited := (tree.kind parent).slots.mapM (tried target replacements listsOnly) tree
      if edited.1.all (·.2.isNone) then (false, edited.2)
      else (true, dropLink parent target replacements
        (setKind parent ((tree.kind parent).withSlots none .empty
        (edited.1.map fun tried => tried.2.getD tried.1)) edited.2).2) := by
  have unfolded : editChild parent target replacements listsOnly tree =
      (if ((tree.kind parent).slots.mapM (tried target replacements listsOnly) tree).1.all
        (·.2.isNone)
        then (pure false : Edit Bool)
        else do
          setKind parent ((tree.kind parent).withSlots none .empty
            (((tree.kind parent).slots.mapM (tried target replacements listsOnly) tree).1.map
              fun tried => tried.2.getD tried.1))
          unless replacements.contains target || (← get).parent target != parent do
            modify (·.setParent target none)
          return true)
            ((tree.kind parent).slots.mapM (tried target replacements listsOnly) tree).2 :=
    rfl
  rw [unfolded]
  generalize (tree.kind parent).slots.mapM (tried target replacements listsOnly) tree = edited
  dsimp only
  split
  · rfl
  · rw [dropLink]
    generalize (tree.kind parent).withSlots none .empty
      (edited.1.map fun tried => tried.2.getD tried.1) = kind
    let stays :=
      replacements.contains target || (setKind parent kind edited.2).2.parent target != parent
    change (if stays = true then (pure true : Edit Bool) else do
        modify (·.setParent target none)
        pure true) (setKind parent kind edited.2).2 = (true, if stays = true then _ else _)
    cases stays <;> rfl

/-- Where the child is found, its parent gets another kind. -/
theorem editChild_eq {parent : Ref} {replacements : List Ref} {middle : Tree}
    {results : List (NodeSlot × Option NodeSlot)}
    (edited : (tree.kind parent).slots.mapM (tried target replacements listsOnly) tree
      = (results, middle))
    (found : ∃ result ∈ results, result.2.isSome) :
    editChild parent target replacements listsOnly tree = (true, dropLink parent target replacements
      (setKind parent ((tree.kind parent).withSlots none .empty
        (results.map fun tried => tried.2.getD tried.1)) middle).2) := by
  have some : results.all (·.2.isNone) = false := by
    obtain ⟨result, member, isSome⟩ := found
    simp only [List.all_eq_false]
    exact ⟨result, member, by simpa [Option.isSome_iff_ne_none] using isSome⟩
  rw [editChild_apply, edited]
  simp only [some, Bool.false_eq_true, if_false]

/-- Where the child is not found, no node is changed. -/
theorem editChild_eq_false {parent : Ref} {replacements : List Ref} {middle : Tree}
    {results : List (NodeSlot × Option NodeSlot)}
    (edited : (tree.kind parent).slots.mapM (tried target replacements listsOnly) tree
      = (results, middle))
    (missing : ¬∃ result ∈ results, result.2.isSome) :
    editChild parent target replacements listsOnly tree = (false, middle) := by
  have none : results.all (·.2.isNone) = true := by
    simp only [List.all_eq_true, ← Option.not_isSome, Bool.not_eq_true']
    exact fun result inside => Bool.eq_false_iff.2 fun isSome => missing ⟨result, inside, isSome⟩
  rw [editChild_apply, edited]
  simp only [none, if_true]

/-- A node whose child is edited is shown with the other terms among its children, before the link
of the child is looked after. -/
theorem editChild_shows {tree : Tree} {place : Place} {form : Form Place} (stored : tree.Stored)
    (shows : tree.Shows (.node place form)) (member : target ∈ (parts form).map Term.ref)
    (hasRef : ∀ term ∈ parts form, tree.HasRef term.ref)
    (hasNew : ∀ term ∈ new, tree.HasRef term.ref)
    (fits : ∀ content ∈ form.slots, FitsInto target new listsOnly content) :
    ∃ middle, editChild place.ref target (new.map Term.ref) listsOnly tree
        = (true, dropLink place.ref target (new.map Term.ref) middle) ∧
      Frame [place.ref] ((parts (splice target new form)).map Term.ref) tree middle ∧
      middle.Shows (.node place (splice target new form)) ∧
      middle.Adopts (.node place (splice target new form)) := by
  obtain ⟨ref, span⟩ := place
  obtain ⟨number, kind, rfl, found, depicts⟩ := shows
  have here : tree.kind (some number) = kind := by simp [Tree.kind, node, found]
  have present : target ≠ none := by
    obtain ⟨child, inside, rfl⟩ := List.mem_map.1 member
    exact (hasRef child inside).ne_none
  obtain ⟨results, middle, edited, grows, holds, isFound⟩ :=
    tried_holds depicts.slots present hasNew
      (fun content within term inside => hasRef term (mem_parts.2 ⟨content, within, inside⟩)) fits
  have someFound : ∃ result ∈ results, result.2.isSome := by
    obtain ⟨child, inside, same⟩ := List.mem_map.1 member
    obtain ⟨content, within, isTerm⟩ := mem_parts.1 inside
    exact isFound.2 ⟨content, within, child, isTerm, same⟩
  have editedHere :=
    @editChild_eq tree target listsOnly (some number) _ _ _ (here.symm ▸ edited) someFound
  rw [here] at editedHere
  set kind' := kind.withSlots none .empty (results.map fun tried => tried.2.getD tried.1)
  have depicts' : middle.Depicts kind' (splice target new form) := by
    have slots : kind'.slots = results.map fun tried => tried.2.getD tried.1 :=
      Kind.slots_withSlots kind (alike_of_holds depicts.slots holds)
    refine ⟨?_, ?_⟩
    · rw [slots, slots_splice]
      exact holds
    · rw [Kind.skeleton_withSlots, skeleton_splice]
      exact depicts.skeleton
  have found' : middle.nodes[number]? = some ⟨kind, span⟩ :=
    (grows.nodes number (Array.getElem?_eq_some_iff.1 found).1 List.not_mem_nil).trans found
  have hasRef' : ∀ term ∈ parts (splice target new form), middle.HasRef term.ref := by
    intro term inside
    rw [parts_splice fits] at inside
    obtain ⟨child, isChild, inside⟩ := List.mem_flatMap.1 inside
    split at inside
    · exact (hasNew term inside).of_frame grows
    · exact List.mem_singleton.1 inside ▸ (hasRef child isChild).of_frame grows
  obtain ⟨changes, shows, adopts⟩ := setKind_shows found' (grows.stored stored) depicts' hasRef'
  exact ⟨_, editedHere, grows.after_growth changes, shows, adopts⟩

/-- Dropping a link touches nothing else. -/
theorem dropLink_frame (parent target : Ref) (replacements : List Ref) (tree : Tree) :
    Frame [] [target] tree (dropLink parent target replacements tree) := by
  rw [dropLink]
  split
  · exact .refl tree
  · exact setParent_frame tree target none fun other => absurd rfl other

/-- A term stands after a link to its root is dropped that belongs to none of its children. -/
theorem Stands.dropLink {tree : Tree} {term : Outline} {replacements : List Ref}
    (stands : tree.Stands term)
    (gone : target ∈ term.children.map Term.ref → target ∈ replacements) :
    (Tree.dropLink term.ref target replacements tree).Stands term := by
  rw [Tree.dropLink]
  split
  · exact stands
  · rename_i lost
    simp only [Bool.or_eq_true, List.contains_iff_mem, bne_iff_ne, ne_eq, not_or, not_not] at lost
    obtain ⟨notNew, link⟩ := lost
    have drops := setParent_frame tree target none fun other => absurd rfl other
    refine stands.of_frame drops (fun _ _ => List.not_mem_nil) fun ref inside isTarget => ?_
    -- A node below the root whose link leads to the root is one of its children.
    obtain rfl := List.mem_singleton.1 isTarget
    obtain ⟨child, isChild, within⟩ := mem_innerRefs.1 inside
    obtain ⟨part, isPart, rfl⟩ := mem_refs.1 within
    rcases exists_holder isPart with rfl | ⟨holder, isHolder, held⟩
    · exact notNew (gone (List.mem_map_of_mem isChild))
    · have up := stands.parent (mem_subterms_of_child isChild isHolder) held
      refine ref_not_mem_innerRefs stands.once (mem_innerRefs.2 ⟨child, isChild, ?_⟩)
      exact mem_refs.2 ⟨holder, isHolder, up.symm.trans link⟩

/-- A node whose child is edited stands with the other terms among its children. The link of the
child is dropped where it still leads to the node. -/
theorem editChild_stands {tree : Tree} {place : Place} {form : Form Place} (stored : tree.Stored)
    (shows : tree.Shows (.node place form)) (member : target ∈ (parts form).map Term.ref)
    (hasRef : ∀ term ∈ parts form, tree.HasRef term.ref)
    (hasNew : ∀ term ∈ new, tree.HasRef term.ref)
    (fits : ∀ content ∈ form.slots, FitsInto target new listsOnly content)
    (children : tree.StandsAll (parts (splice target new form)))
    (outside : place.ref ∉ (parts (splice target new form)).flatMap refs) :
    ∃ after, editChild place.ref target (new.map Term.ref) listsOnly tree = (true, after) ∧
      Frame [place.ref] (target :: (parts (splice target new form)).map Term.ref) tree after ∧
      after.Stands (.node place (splice target new form)) := by
  obtain ⟨middle, edited, frame, shows, adopts⟩ :=
    editChild_shows stored shows member hasRef hasNew fits
  have stands := children.adopted_here frame shows adopts outside
  refine ⟨_, edited, ?_, stands.dropLink fun isChild => ?_⟩
  · refine (frame.mono (fun _ inside _ => inside) fun _ inside _ => .tail _ inside).trans
      (dropLink_frame place.ref target (new.map Term.ref) middle)
      (fun _ inside => absurd inside List.not_mem_nil) fun ref inside _ => ?_
    exact List.mem_singleton.1 inside ▸ .head _
  · obtain ⟨child, isChild, rfl⟩ := List.mem_map.1 isChild
    rw [Term.children, Term.kind, parts_splice fits] at isChild
    obtain ⟨old, -, isNew⟩ := List.mem_flatMap.1 isChild
    split at isNew
    · exact List.mem_map_of_mem isNew
    · rename_i other
      exact absurd (List.mem_singleton.1 isNew ▸ rfl) other

end

/-- A program whose part was changed where it is, and nothing else, is a program with another part
in that place. -/
theorem IsProgram.swap {changed moved : List Ref} {before : Tree} {whole part new : Outline}
    (program : before.IsProgram whole) (frame : Frame changed moved before after)
    (within : part ∈ whole.subterms) (stands : after.Stands new) (same : new.ref = part.ref)
    (changes : ∀ ref ∈ whole.refs, ref ∈ changed → ref ∈ part.refs)
    (moves : ∀ ref ∈ whole.refs, ref ∈ moved → ref ∈ part.innerRefs)
    (origin : ∀ ref ∈ new.refs, ref ∈ whole.refs → ref ∈ part.refs) :
    after.IsProgram (Term.swap part.ref new whole) where
  stands := program.stands.swap frame within stands same changes moves origin
  root := (ref_swap same).trans (program.root.trans frame.root.symm)
  top := by
    obtain ⟨number, inside, isRoot⟩ := program.stands.hasRef (ref_mem_refs whole)
    have top := program.top
    rw [frame.root]
    rw [← program.root, isRoot] at top ⊢
    refine (frame.parents number inside fun isMoved => ?_).trans top
    have inner := moves _ (isRoot ▸ ref_mem_refs whole) isMoved
    exact ref_not_mem_innerRefs program.stands.once (isRoot.symm ▸ innerRefs_subset within inner)
  stored := frame.stored program.stored

/-- A part of a term was changed where it is, and nothing of the term outside the part. -/
structure Reshapes (before after : Tree) (whole part new : Outline) : Prop where
  /-- Only the part and the links below it were touched. -/
  frame : ∃ changed moved, Frame changed moved before after ∧
    (∀ ref ∈ whole.refs, ref ∈ changed → ref ∈ part.refs) ∧
    ∀ ref ∈ whole.refs, ref ∈ moved → ref ∈ part.innerRefs
  /-- What the part became stands. -/
  stands : after.Stands new
  /-- It is where the part was. -/
  same : new.ref = part.ref
  /-- It brings in nothing from outside the part. -/
  origin : ∀ ref ∈ new.refs, ref ∈ whole.refs → ref ∈ part.refs

/-- The nodes of a term but those of a part of it are as they were. -/
def Leaves (before after : Tree) (whole part : Outline) : Prop :=
  ∀ ref ∈ whole.refs, ref ∉ part.refs → after.node ref = before.node ref

/-- What was changed in a part of a term is only the part. -/
theorem Reshapes.leaves {before : Tree} {whole part new : Outline}
    (reshapes : Reshapes before after whole part new)
    (stands : before.Stands whole) : Leaves before after whole part := by
  obtain ⟨changed, moved, frame, changes, -⟩ := reshapes.frame
  exact fun ref inWhole outside =>
    frame.node_eq (stands.hasRef inWhole) fun isChanged => outside (changes ref inWhole isChanged)

/-- A change of a part and then one of another part leave all that is outside of a larger part. -/
theorem Leaves.trans {before middle : Tree} {whole part outer inner new : Outline}
    (once : whole.refs.Nodup) (first : Leaves before middle whole part)
    (second : Leaves middle after (Term.swap part.ref new whole) inner)
    (within : part ∈ whole.subterms) (below : part.refs ⊆ outer.refs)
    (meets : ∀ ref ∈ whole.refs, ref ∈ inner.refs → ref ∈ outer.refs) :
    Leaves before after whole outer := by
  intro ref inWhole outside
  have outsidePart : ref ∉ part.refs := fun inside => outside (below inside)
  rw [second ref ((mem_refs_swap once within).2 (.inl ⟨inWhole, outsidePart⟩)) fun inside =>
    outside (meets ref inWhole inside),
    first ref inWhole outsidePart]

/-- A term stands with what a part of it became. -/
theorem Stands.reshape {before : Tree} {whole part new : Outline} (stands : before.Stands whole)
    (within : part ∈ whole.subterms) (reshapes : Reshapes before after whole part new) :
    after.Stands (Term.swap part.ref new whole) := by
  obtain ⟨changed, moved, frame, changes, moves⟩ := reshapes.frame
  exact stands.swap frame within reshapes.stands reshapes.same changes moves reshapes.origin

/-- A program is one with what a part of it became. -/
theorem IsProgram.reshape {before : Tree} {whole part new : Outline}
    (program : before.IsProgram whole)
    (within : part ∈ whole.subterms) (reshapes : Reshapes before after whole part new) :
    after.IsProgram (Term.swap part.ref new whole) := by
  obtain ⟨changed, moved, frame, changes, moves⟩ := reshapes.frame
  exact program.swap frame within reshapes.stands reshapes.same changes moves reshapes.origin

/-- A part of a term that stands gets another kind, over children that stand and that are new or
were below it. Before that, only what is below the part was touched. -/
theorem Stands.setKind {changed moved : List Ref} {before middle : Tree} {whole part : Outline}
    {kind : NodeKind} {form : Form Place} (stands : before.Stands whole)
    (frame : Frame changed moved before middle) (stored : middle.Stored)
    (within : part ∈ whole.subterms)
    (changes : ∀ ref ∈ whole.refs, ref ∈ changed → ref ∈ part.innerRefs)
    (moves : ∀ ref ∈ whole.refs, ref ∈ moved → ref ∈ part.innerRefs)
    (depicts : middle.Depicts kind form) (children : middle.StandsAll (parts form))
    (origin : ∀ ref ∈ (parts form).flatMap refs, ref ∈ whole.refs → ref ∈ part.innerRefs) :
    ∃ after, Tree.setKind part.ref kind middle = ((), after) ∧
      Frame [part.ref] ((parts form).map Term.ref) middle after ∧
      Reshapes before after whole part (.node part.note form) := by
  have inWhole : part.ref ∈ whole.refs := mem_refs.2 ⟨part, within, rfl⟩
  have outer : part.ref ∉ part.innerRefs := ref_not_mem_innerRefs (stands.subterm within).once
  obtain ⟨number, old, place, found, -⟩ := (stands.shows within).of_frame frame
    fun isChanged => outer (changes _ inWhole isChanged)
  have outside : some number ∉ (parts form).flatMap refs := fun member =>
    outer (origin _ (place ▸ member) inWhole)
  obtain ⟨sets, standsHere⟩ := setKind_stands found stored depicts children outside
  rw [← place] at sets standsHere
  have both : Frame (part.ref :: changed) (moved ++ (parts form).map Term.ref) before
      (Tree.setKind part.ref kind middle).2 :=
    (frame.mono (fun ref inside _ => .tail _ inside) fun ref inside _ =>
    List.mem_append_left _ inside).trans
      sets (fun ref inside _ => List.mem_singleton.1 inside ▸ .head _) fun ref inside _ =>
        List.mem_append_right _ inside
  refine ⟨_, rfl, sets, ⟨_, _, both, fun ref inWhole inside => ?_, fun ref inWhole inside => ?_⟩,
    standsHere, rfl, fun ref inside inWhole => ?_⟩
  · rw [refs_eq]
    rcases List.mem_cons.1 inside with rfl | isChanged
    · exact .head _
    · exact .tail _ (changes ref inWhole isChanged)
  · rcases List.mem_append.1 inside with isMoved | isRoot
    · exact moves ref inWhole isMoved
    · exact origin ref (mem_flatMap_refs_of_root isRoot) inWhole
  · rw [refs_node] at inside
    rw [refs_eq]
    exact (List.mem_cons.1 inside).elim (fun same => same ▸ .head _) fun inside =>
      .tail _ (origin ref inside inWhole)

/-- A program stays one when nothing but new nodes is added. -/
theorem IsProgram.of_frame {before : Tree} {whole : Outline} (program : before.IsProgram whole)
    (frame : Frame [] [] before after) : after.IsProgram whole where
  stands := program.stands.of_growth frame
  root := program.root.trans frame.root.symm
  top := by
    obtain ⟨number, inside, isRoot⟩ := program.stands.hasRef (ref_mem_refs whole)
    have top := program.top
    rw [frame.root]
    rw [← program.root, isRoot] at top ⊢
    exact (frame.parents number inside List.not_mem_nil).trans top
  stored := frame.stored program.stored

/-- What was changed in a program lies within a part of it, and the terms that are to come in the
place of the part stand apart from the rest. -/
structure Prepares (before middle : Tree) (whole part : Outline) (new : List Outline) : Prop where
  /-- Only nodes and links within the part were touched. -/
  frame : ∃ changed moved, Frame changed moved before middle ∧
    (∀ ref ∈ whole.refs, ref ∈ changed → ref ∈ part.refs) ∧
    ∀ ref ∈ whole.refs, ref ∈ moved → ref ∈ part.refs
  /-- The terms stand. -/
  stands : middle.StandsAll new
  /-- They bring in nothing from outside the part. -/
  origin : ∀ ref ∈ new.flatMap refs, ref ∈ whole.refs → ref ∈ part.refs

section

variable {before middle : Tree} {whole holder part : Outline} {new : List Outline}
  {listsOnly : Bool}

/-- What is made in a scope that meets a program within a part can come in the place of the part. -/
theorem Reworks.prepares {scope : List Ref} (reworks : Reworks scope before middle new)
    (program : before.IsProgram whole)
    (within : ∀ ref ∈ whole.refs, ref ∈ scope → ref ∈ part.refs) :
    Prepares before middle whole part new where
  frame := ⟨scope, scope, reworks.frame, within, within⟩
  stands := reworks.stands
  origin ref member inWhole :=
    within ref inWhole (reworks.origin ref member (program.stands.hasRef inWhole))

/-- What is built of the terms that are to come in the place of a part can come there. -/
theorem Prepares.build {outputs : List Outline} (prepares : Prepares before middle whole part new)
    (program : before.IsProgram whole) (builds : Builds new middle after outputs) :
    Prepares before after whole part outputs := by
  obtain ⟨changed, moved, frame, changes, moves⟩ := prepares.frame
  have both := (frame.mono (fun _ member _ => member) fun _ member _ =>
    List.mem_append_left (new.flatMap refs) member).trans builds.frame
      (fun _ member => absurd member List.not_mem_nil) fun _ member _ =>
    List.mem_append_right _ member
  refine ⟨⟨changed, _, both, changes, fun ref inWhole isMoved => ?_⟩, builds.stands,
    fun ref inside inWhole => ?_⟩
  · exact (List.mem_append.1 isMoved).elim (moves ref inWhole) fun isNew =>
      prepares.origin ref isNew inWhole
  · have stored := (program.stands.hasRef inWhole).of_frame frame
    exact prepares.origin ref (builds.origin ref inside stored) inWhole

/-- The terms that are to come in the place of a part stand among the other children of its
holder. -/
theorem Prepares.children (prepares : Prepares before middle whole part new)
    (stands : before.Stands whole) (within : holder ∈ whole.subterms)
    {front back : List Outline} (split : holder.children = front ++ part :: back) :
    middle.StandsAll (front ++ new ++ back) ∧ holder.ref ∉ (front ++ new ++ back).flatMap refs := by
  obtain ⟨changed, moved, frame, changes, moves⟩ := prepares.frame
  obtain ⟨standsAll, outside⟩ := (stands.subterm within).children
  have inWhole {child : Outline} (isChild : child ∈ holder.children) : child.refs ⊆ whole.refs :=
    refs_subset (subterms_child within isChild)
  rw [split] at standsAll outside inWhole
  have reordered := standsAll.perm (List.perm_middle)
  obtain ⟨-, others, apart⟩ := StandsAll.cons_iff.1 reordered
  have standing : middle.StandsAll (front ++ back) := by
    refine ⟨fun term member => ?_, others.once⟩
    have isChild : term ∈ front ++ part :: back := by
      rcases List.mem_append.1 member with member | member
      · exact List.mem_append_left _ member
      · exact List.mem_append_right _ (.tail _ member)
    have disjoint {ref : Ref} (inside : ref ∈ term.refs) : ref ∉ part.refs := fun shared =>
      apart shared (List.mem_flatMap.2 ⟨term, member, inside⟩)
    refine (others.each term member).of_frame frame (fun ref inside isChanged => ?_)
      fun ref inside isMoved => ?_
    · exact disjoint inside (changes ref (inWhole isChild inside) isChanged)
    · have inside : ref ∈ term.refs := refs_eq term ▸ .tail _ inside
      exact disjoint inside (moves ref (inWhole isChild inside) isMoved)
  have both : middle.StandsAll (new ++ (front ++ back)) := by
    refine StandsAll.append_iff.2 ⟨prepares.stands, standing, fun ref isNew isOld => ?_⟩
    obtain ⟨term, member, inside⟩ := List.mem_flatMap.1 isOld
    have isChild : term ∈ front ++ part :: back := by
      rcases List.mem_append.1 member with member | member
      · exact List.mem_append_left _ member
      · exact List.mem_append_right _ (.tail _ member)
    exact apart (prepares.origin ref isNew (inWhole isChild inside)) isOld
  refine ⟨both.perm ?_, fun member => ?_⟩
  · rw [List.append_assoc]
    exact List.perm_append_comm_assoc new front back
  · have inPart : holder.ref ∈ new.flatMap refs → False := fun isNew => outside <| by
      have inPart := prepares.origin _ isNew (refs_subset within (ref_mem_refs holder))
      exact List.mem_flatMap.2 ⟨part, by simp, inPart⟩
    simp only [List.flatMap_append, List.mem_append, List.flatMap_cons] at member outside
    tauto

/-- A part of a term gets another kind over some of the terms that were made, where these meet the
term only below the part. The term comes among the terms that were made. -/
theorem Reworks.setKind {scope : List Ref} {start middle : Tree} {outputs : List Outline}
    {kind : NodeKind}
    {form : Form Place} (reworks : Reworks scope start middle (parts form ++ outputs))
    (stored : middle.Stored)
    (stands : start.Stands whole) (within : part ∈ whole.subterms)
    (meets : ∀ ref ∈ whole.refs, ref ∈ scope → ref ∈ part.innerRefs)
    (depicts : middle.Depicts kind form) :
    ∃ after, Tree.setKind part.ref kind middle = ((), after) ∧
    Reworks (whole.refs ++ scope) start after
      (Term.swap part.ref (.node part.note form) whole :: outputs) := by
  obtain ⟨standsChildren, standsOutputs, apart⟩ := StandsAll.append_iff.1 reworks.stands
  have origin {ref : Ref} (made : ref ∈ (parts form).flatMap refs ∨ ref ∈ outputs.flatMap refs)
      (inWhole : ref ∈ whole.refs) : ref ∈ part.innerRefs := by
    refine meets ref inWhole (reworks.origin ref ?_ (stands.hasRef inWhole))
    rw [List.flatMap_append]
    exact List.mem_append.2 made
  have outer : part.ref ∉ part.innerRefs := ref_not_mem_innerRefs (stands.subterm within).once
  have partWithin : part.ref ∈ whole.refs := mem_refs.2 ⟨part, within, rfl⟩
  obtain ⟨after, set, sets, reshapes⟩ :=
    stands.setKind reworks.frame stored within meets meets depicts
    standsChildren fun ref inside inWhole => origin (.inl inside) inWhole
  have standsWhole := stands.reshape within reshapes
  have inSwapped {ref : Ref}
      (inside : ref ∈ (Term.swap part.ref (.node part.note form) whole).refs) :
      ref ∈ whole.refs ∧ ref ∉ part.innerRefs ∨ ref ∈ (parts form).flatMap refs := by
    rcases (mem_refs_swap stands.once within).1 inside with ⟨inWhole, outside⟩ | inside
    · exact .inl ⟨inWhole, fun inner => outside (refs_eq part ▸ .tail _ inner)⟩
    · rw [refs_node] at inside
      refine (List.mem_cons.1 inside).imp_left fun isPart => ?_
      obtain rfl : ref = part.ref := isPart
      exact ⟨partWithin, outer⟩
  have standsOthers : after.StandsAll outputs := by
    refine ⟨fun term member =>
      (standsOutputs.each term member).of_frame sets (fun ref inside isPart => ?_)
      fun ref inside isRoot => ?_, standsOutputs.once⟩
    · obtain rfl := List.mem_singleton.1 isPart
      exact outer (origin (.inr (List.mem_flatMap.2 ⟨term, member, inside⟩)) partWithin)
    · exact apart (mem_flatMap_refs_of_root isRoot)
        (List.mem_flatMap.2 ⟨term, member, refs_eq term ▸ .tail _ inside⟩)
  refine ⟨after, set, ?_, StandsAll.cons_iff.2
    ⟨standsWhole, standsOthers, fun ref here there => ?_⟩, fun ref member inStart => ?_⟩
  · refine (reworks.mono (List.subset_append_right _ _)).frame.trans sets (fun ref isPart _ => ?_)
      fun ref isRoot inStart => ?_
    · exact List.mem_append_left _ (List.mem_singleton.1 isPart ▸ partWithin)
    · refine List.mem_append_right _ (reworks.origin ref ?_ inStart)
      rw [List.flatMap_append]
      exact List.mem_append_left _ (mem_flatMap_refs_of_root isRoot)
  · rcases inSwapped here with ⟨inWhole, outside⟩ | inChildren
    · exact outside (origin (.inr there) inWhole)
    · exact apart inChildren there
  · rw [List.flatMap_cons] at member
    have made : ref ∈ whole.refs ∨ ref ∈ (parts form ++ outputs).flatMap refs := by
      rw [List.flatMap_append, List.mem_append]
      rcases List.mem_append.1 member with inside | inside
      · exact (inSwapped inside).imp And.left .inl
      · exact .inr (.inr inside)
    exact List.mem_append.2 (made.imp_right fun made => reworks.origin ref made inStart)

/-- Putting terms into the place of a part of a term gives its holder the terms in that place. What
stands apart from the terms, and from all of the whole but the inside of the part, stands
afterwards. -/
theorem Prepares.editChild (prepares : Prepares before middle whole part new)
    (stands : before.Stands whole) (stored : middle.Stored) (within : holder ∈ whole.subterms)
    (held : part ∈ holder.children)
    (fits : ∀ content ∈ holder.kind.slots, FitsInto part.ref new listsOnly content) :
    ∃ after, Tree.editChild holder.ref part.ref (new.map Term.ref) listsOnly middle =
    (true, after) ∧
      Frame [holder.ref] (part.ref :: (parts (Term.splice part.ref new holder.kind)).map Term.ref)
        middle after ∧ Reshapes before after whole holder
      (.node holder.note (Term.splice part.ref new holder.kind)) ∧
      ∀ other, middle.Stands other → (∀ ref ∈ other.refs, ref ∈ whole.refs → ref ∈ part.innerRefs) →
        other.refs.Disjoint (new.flatMap refs) → after.Stands other := by
  obtain ⟨front, back, split⟩ := List.append_of_mem held
  obtain ⟨standsNew, outside⟩ := prepares.children stands within split
  obtain ⟨changed, moved, frame, changes, moves⟩ := prepares.frame
  have standsHolder := stands.subterm within
  obtain ⟨standsAll, apart⟩ := standsHolder.children
  rcases holder with ⟨place, form⟩
  change parts form = front ++ part :: back at split
  have splits : parts form = front ++ part :: back := split
  replace fits : ∀ content ∈ form.slots, FitsInto part.ref new listsOnly content := fits
  have others {other : Outline} (member : other ∈ front ++ back) : other.ref ≠ part.ref := by
    have reordered := standsAll.perm (split ▸ List.perm_middle)
    obtain ⟨-, -, disjoint⟩ := StandsAll.cons_iff.1 reordered
    exact fun same => disjoint (same ▸ ref_mem_refs part)
      (List.mem_flatMap.2 ⟨other, member, ref_mem_refs other⟩)
  have spliced : parts (Term.splice part.ref new form) = front ++ new ++ back :=
    parts_splice_child fits splits fun other member => others member
  have partInner : part.refs ⊆ innerRefs (.node place form) := fun ref inside =>
    mem_innerRefs.2 ⟨part, held, inside⟩
  have placeOutside : place.ref ∉ part.refs := fun inside =>
    apart (List.mem_flatMap.2 ⟨part, held, inside⟩)
  have placeWithin : place.ref ∈ whole.refs := refs_subset within (by simp)
  have innerWithin : innerRefs (.node place form) ⊆ whole.refs := fun ref inside =>
    refs_subset within (refs_eq (.node place form) ▸ .tail _ inside)
  have shows : middle.Shows (.node place form) := (stands.shows within).of_frame frame
    fun isChanged => placeOutside (changes _ placeWithin isChanged)
  obtain ⟨after, edited, edits, standsAfter⟩ := editChild_stands stored shows
    (List.mem_map_of_mem held)
    (fun term member => ((standsAll.each term member).hasRef (ref_mem_refs term)).of_frame frame)
    (fun term member =>
    prepares.stands.hasRef (List.mem_flatMap.2 ⟨term, member, ref_mem_refs term⟩))
    fits (spliced.symm ▸ standsNew) (spliced.symm ▸ outside)
  have edits' := edits
  rw [spliced] at edits'
  have made : ∀ ref ∈ (front ++ new ++ back).flatMap refs, ref ∈ whole.refs →
      ref ∈ innerRefs (.node place form) := by
    intro ref member inWhole
    simp only [List.flatMap_append, List.mem_append, innerRefs, Term.children, Term.kind, splits,
      List.flatMap_cons] at member ⊢
    rcases member with (inFront | isNew) | inBack
    · exact .inl inFront
    · exact .inr (.inl (prepares.origin ref isNew inWhole))
    · exact .inr (.inr inBack)
  have both : Frame (place.ref :: changed)
      (part.ref :: (moved ++ (front ++ new ++ back).map Term.ref)) before after := by
    refine (frame.mono (fun ref inside _ => .tail _ inside) fun ref inside _ => ?_).trans edits'
      (fun ref inside _ => ?_) fun ref inside _ => ?_
    · exact .tail _ (List.mem_append_left _ inside)
    · exact List.mem_singleton.1 inside ▸ .head _
    · rcases List.mem_cons.1 inside with rfl | inside
      · exact .head _
      · exact .tail _ (List.mem_append_right _ inside)
  have movesInner : ∀ ref ∈ whole.refs,
      ref ∈ part.ref :: (moved ++ (front ++ new ++ back).map Term.ref) →
        ref ∈ innerRefs (.node place form) := by
    intro ref inWhole inside
    rcases List.mem_cons.1 inside with rfl | inside
    · exact partInner (ref_mem_refs part)
    · rcases List.mem_append.1 inside with isMoved | isRoot
      · exact partInner (moves ref inWhole isMoved)
      · exact made ref (mem_flatMap_refs_of_root isRoot) inWhole
  refine ⟨after, edited, edits, ⟨⟨_, _, both, fun ref inWhole inside => ?_, movesInner⟩,
    standsAfter, rfl, fun ref inside inWhole => ?_⟩, fun other standsOther within apartNew => ?_⟩
  · rw [refs_eq]
    rcases List.mem_cons.1 inside with rfl | isChanged
    · exact .head _
    · exact .tail _ (partInner (changes ref inWhole isChanged))
  · simp only [Term.note, Term.kind, refs_node, spliced] at inside
    rw [refs_eq]
    exact (List.mem_cons.1 inside).elim (fun same => same ▸ .head _)
      fun inside => .tail _ (made ref inside inWhole)
  · have inPart {ref : Ref} (inside : ref ∈ other.refs) (inWhole : ref ∈ whole.refs) :
        ref ∈ part.refs := refs_eq part ▸ .tail _ (within ref inside inWhole)
    refine standsOther.of_frame edits' (fun ref inside isChanged => ?_) fun ref inside isMoved => ?_
    · obtain rfl := List.mem_singleton.1 isChanged
      exact placeOutside (inPart inside placeWithin)
    · replace inside : ref ∈ other.refs := refs_eq other ▸ .tail _ inside
      rcases List.mem_cons.1 isMoved with rfl | isRoot
      · have inner := within _ inside (innerWithin (partInner (ref_mem_refs part)))
        exact ref_not_mem_innerRefs (standsHolder.subterm (child_mem_subterms held)).once inner
      · have old {list : List Outline} (some : list ⊆ front ++ back)
            (isRoot : ref ∈ list.map Term.ref) :
            False := by
          obtain ⟨child, member, rfl⟩ := List.mem_map.1 isRoot
          have isChild : child ∈ parts form := by
            rw [splits]
            rcases List.mem_append.1 (some member) with ahead | behind
            · exact List.mem_append_left _ ahead
            · exact List.mem_append_right _ (.tail _ behind)
          have inWhole := innerWithin (mem_innerRefs.2 ⟨child, isChild, ref_mem_refs child⟩)
          have reordered := standsAll.perm (split ▸ List.perm_middle)
          obtain ⟨-, -, disjoint⟩ := StandsAll.cons_iff.1 reordered
          exact disjoint (inPart inside inWhole)
            (List.mem_flatMap.2 ⟨child, some member, ref_mem_refs child⟩)
        simp only [List.map_append, List.mem_append] at isRoot
        rcases isRoot with (inFront | isNew) | inBack
        · exact old (by simp) inFront
        · exact apartNew inside (mem_flatMap_refs_of_root isNew)
        · exact old (by simp) inBack

/-- Putting a term into the place of a part of a term that stands apart gives that term with the
other one in the place. -/
theorem StandsAll.put {tree : Tree} {term : Outline} {others : List Outline} (stored : tree.Stored)
    (all : tree.StandsAll (term :: whole :: others)) (within : holder ∈ whole.subterms)
    (held : part ∈ holder.children) :
    ∃ after, Change.put (tree.parent part.ref) part.ref term.ref tree = .ok ((), after) ∧
      Reworks ((term :: whole :: others).flatMap refs) tree after
        (Term.swap part.ref term whole :: others) := by
  obtain ⟨standsTerm, standsRest, apart⟩ := StandsAll.cons_iff.1 all
  obtain ⟨standsWhole, standsOthers, apartOthers⟩ := StandsAll.cons_iff.1 standsRest
  rw [List.flatMap_cons, List.disjoint_append_right] at apart
  have held' := child_mem_subterms held
  have partWithin := subterms_trans within held'
  have prepares : Prepares tree tree whole part [term] :=
    ⟨⟨[], [], .refl tree, by simp, by simp⟩, StandsAll.singleton_iff.2 standsTerm,
    fun ref isNew inWhole => absurd inWhole (apart.1 (by simpa using isNew))⟩
  obtain ⟨after, edited, edits, reshapes, stays⟩ :=
    prepares.editChild standsWhole stored within held
    fun content _ => fitsInto_single term content
  have standsSwapped := standsWhole.reshape within reshapes
  rw [swap_holder standsWhole.once within held] at standsSwapped
  have inSwapped {ref : Ref} (inside : ref ∈ (Term.swap part.ref term whole).refs) :
      ref ∈ whole.refs ∨ ref ∈ term.refs :=
    ((mem_refs_swap standsWhole.once partWithin).1 inside).imp_left And.left
  refine ⟨after, ?_, ?_, StandsAll.cons_iff.2 ⟨standsSwapped, ⟨fun other member =>
    ?_, standsOthers.once⟩, fun ref inside isOther => ?_⟩, fun ref member _ => ?_⟩
  · rw [standsWhole.parent within held]
    obtain ⟨number, -, isHolder⟩ := standsWhole.hasRef (mem_refs.2 ⟨holder, within, rfl⟩)
    rw [isHolder] at edited ⊢
    change (match Tree.editChild (some number) part.ref [term.ref] false tree with
      | (found, tree) => Change.demand found (.misplaced part.ref (some number)) tree) = _
    rw [show Tree.editChild (some number) part.ref [term.ref] false tree
      = (true, after) from edited]
    rfl
  · have inScope {ref : Ref} (inside : ref ∈ whole.refs ∨ ref ∈ term.refs) :
        ref ∈ (term :: whole :: others).flatMap refs := by
      rw [List.flatMap_cons, List.flatMap_cons, ← List.append_assoc]
      exact List.mem_append_left _ (List.mem_append.2 inside.symm)
    refine edits.mono (fun ref isHolder _ => ?_) fun ref isMoved _ => ?_
    · exact inScope (.inl (List.mem_singleton.1 isHolder ▸ mem_refs.2 ⟨holder, within, rfl⟩))
    · rcases List.mem_cons.1 isMoved with rfl | isRoot
      · exact inScope (.inl (mem_refs.2 ⟨part, partWithin, rfl⟩))
      · have isPart :=
          swap_holder standsWhole.once within held term ▸ mem_subterms_swap standsWhole.once within
        exact inScope
          (inSwapped (refs_subset isPart (refs_eq _ ▸ .tail _ (mem_flatMap_refs_of_root isRoot))))
  · refine stays other (standsOthers.each other member) (fun ref inside inWhole => ?_)
      fun ref inside isNew => ?_
    · exact absurd (List.mem_flatMap.2 ⟨other, member, inside⟩) (apartOthers inWhole)
    · exact apart.2 (by simpa using isNew) (List.mem_flatMap.2 ⟨other, member, inside⟩)
  · rcases inSwapped inside with inWhole | inTerm
    · exact apartOthers inWhole isOther
    · exact apart.2 inTerm isOther
  · rw [List.flatMap_cons, List.mem_append] at member
    rw [List.flatMap_cons, List.flatMap_cons, List.mem_append, List.mem_append]
    rcases member with inside | isOther
    · exact (inSwapped inside).elim (fun inWhole => .inr (.inl inWhole)) .inl
    · exact .inr (.inr isOther)

/-- The nodes of a term but those of a part of it, and but the one above the part, are as they
were. -/
def Spares (before after : Tree) (whole part : Outline) : Prop :=
  ∀ ref ∈ whole.refs, ref ∉ part.refs → ref ≠ before.parent part.ref →
    after.node ref = before.node ref

/-- A change has put a term into the place of a part of a program and spared all else. -/
structure Places (before after : Tree) (whole part new : Outline) : Prop where
  /-- The part belongs to the program. -/
  within : part ∈ whole.subterms
  /-- The term is in its place. -/
  program : after.IsProgram (Term.swap part.ref new whole)
  /-- All else is as it was. -/
  spares : Spares before after whole part

/-- Before the change, nodes may have been added. -/
theorem Places.after_growth {start : Tree} {new : Outline}
    (places : Places before after whole part new) (program : start.IsProgram whole)
    (frame : Frame [] [] start before) : Places start after whole part new := by
  refine ⟨places.within, places.program, fun ref inWhole outside apart => ?_⟩
  obtain ⟨number, stored, isPart⟩ :=
    program.stands.hasRef (refs_subset places.within (ref_mem_refs part))
  have same : before.parent part.ref = start.parent part.ref :=
    isPart ▸ frame.parents number stored List.not_mem_nil
  rw [places.spares ref inWhole outside (same ▸ apart),
    frame.node_eq (program.stands.hasRef inWhole) List.not_mem_nil]

/-- A change of the part and one of the node above it spare all else. -/
theorem Prepares.spares {moved : List Ref} (prepares : Prepares before middle whole part new)
    (stands : before.Stands whole) (within : holder ∈ whole.subterms)
    (held : part ∈ holder.children)
    (frame : Frame [holder.ref] moved middle after) : Spares before after whole part := by
  intro ref inWhole outside apart
  obtain ⟨changed, _, prepared, changes, -⟩ := prepares.frame
  have stored := stands.hasRef inWhole
  rw [stands.parent within held] at apart
  rw [frame.node_eq (stored.of_frame prepared) (by simpa using apart),
    prepared.node_eq stored fun isChanged => outside (changes ref inWhole isChanged)]

/-- Putting a term into the place of a part of a program gives the program with the term in that
place, and spares all else. What stands apart from the term, and from all of the program but the
inside of the part, stands afterwards. -/
theorem Prepares.put {term : Outline} (prepares : Prepares before middle whole part [term])
    (program : before.IsProgram whole) (within : part ∈ whole.subterms) :
    ∃ after, Change.put (before.parent part.ref) part.ref term.ref middle = .ok ((), after) ∧
      after.IsProgram (Term.swap part.ref term whole) ∧ Spares before after whole part ∧
      ∀ other, middle.Stands other → (∀ ref ∈ other.refs, ref ∈ whole.refs → ref ∈ part.innerRefs) →
        other.refs.Disjoint term.refs → after.Stands other := by
  rcases program.parent_cases within with ⟨rfl, top⟩ | ⟨holder, inside, held, up⟩
  · obtain ⟨changed, moved, frame, -⟩ := prepares.frame
    rw [top, swap_self]
    refine ⟨_, rfl, setRoot_isProgram (frame.stored program.stored)
      (StandsAll.singleton_iff.1 prepares.stands), fun ref inside outside => absurd inside outside,
      fun other stands _ apart => ?_⟩
    have moves := (setParent_frame { middle with root := term.ref } term.ref none
      (fun other => absurd rfl other)).touch
    refine (stands.withRoot term.ref).of_frame moves (fun _ _ => List.not_mem_nil)
      fun ref inside isRoot => ?_
    have inside : ref ∈ other.refs := refs_eq other ▸ .tail _ inside
    exact apart inside (List.mem_singleton.1 isRoot ▸ ref_mem_refs term)
  · obtain ⟨changed, moved, frame, -⟩ := prepares.frame
    obtain ⟨after, edited, edits, reshapes, others⟩ := prepares.editChild program.stands
      (frame.stored program.stored) inside held fun content _ => fitsInto_single term content
    have isProgram := program.reshape inside reshapes
    obtain ⟨number, -, isHolder⟩ := program.stands.hasRef (mem_refs.2 ⟨holder, inside, rfl⟩)
    rw [swap_holder program.stands.once inside held] at isProgram
    refine ⟨after, ?_, isProgram, prepares.spares program.stands inside held edits,
      fun other stands within apart => ?_⟩
    · rw [isHolder] at edited
      rw [up, isHolder]
      change (match Tree.editChild (some number) part.ref [term.ref] false middle with
        | (found, tree) => Change.demand found (.misplaced part.ref (some number)) tree) = _
      rw [show Tree.editChild (some number) part.ref [term.ref] false middle
        = (true, after) from edited]
      rfl
    · exact others other stands within (by simpa using apart)

end

end Tree

end Refactory
