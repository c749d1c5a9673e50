import Refactory.Proofs.Tree.Adoption

/-!
# Another part in a term that stands

An edit changes a node, or puts one node in the place of another. Where a term stood before, the
term with another part in that place stands afterwards (`Tree.Stands.swap`), as long as everything
outside the part was left alone.
-/
namespace Refactory

namespace Term

/-- An outline with another one in the place of the part at a reference. -/
def swap (target : Ref) (new : Outline) : Outline → Outline :=
  rework fun part form => if part.ref = target then new else .node part.note form

section

variable {target : Ref} {new outline part : Outline}

theorem swap_node (target : Ref) (new : Outline) (place : Place) (form : Form Place) :
    swap target new (.node place form)
      = if place.ref = target then new else .node place (mapChildren (swap target new) form) := by
  rw [swap, rework_node]
  rfl

theorem swap_self (outline new : Outline) : swap outline.ref new outline = new := by
  rcases outline with ⟨place, form⟩
  rw [swap_node]
  exact if_pos rfl

/-- Nothing changes where the place does not occur. -/
theorem swap_of_not_mem (absent : target ∉ outline.refs) : swap target new outline = outline := by
  induction outline using Term.induction with
  | step place form ih =>
    rw [refs_node, List.mem_cons, not_or] at absent
    rw [swap_node, if_neg (Ne.symm absent.1), mapChildren_eq_self fun child member => ?_]
    refine ih child member fun inside => absent.2 ?_
    exact List.mem_flatMap.2 ⟨child, member, inside⟩

/-- What gets the place of a part leaves the place of the whole as it is. -/
theorem ref_swap (same : new.ref = target) : (swap target new outline).ref = outline.ref := by
  rcases outline with ⟨place, form⟩
  rw [swap_node]
  split
  · rename_i here
    exact same.trans here.symm
  · rfl

/-- A part below the whole leaves the place of the whole as it is. -/
theorem ref_swap_of_ne
    (below : outline.ref ≠ target) : (swap target new outline).ref = outline.ref := by
  rcases outline with ⟨place, form⟩
  rw [ref_node] at below
  rw [swap_node, if_neg below]
  rfl

/-- A part below the whole changes only the children of the whole. -/
theorem kind_swap_of_ne (below : outline.ref ≠ target) :
    (swap target new outline).kind = mapChildren (swap target new) outline.kind := by
  rcases outline with ⟨place, form⟩
  rw [ref_node] at below
  rw [swap_node, if_neg below, Term.kind, Term.kind]

/-- A part that gets another form leaves the place of the whole as it is. -/
@[simp] theorem ref_swap_node (part whole : Outline) (form : Form Place) :
    (swap part.ref (.node part.note form) whole).ref = whole.ref := ref_swap rfl

/-- A part lies below one child, and no other child shares a place with it. -/
theorem exists_child_of_subterm {place : Place} {form : Form Place}
    (once : (Term.refs (.node place form)).Nodup) (member : part ∈ Term.subterms (.node place form))
    (deeper : part ≠ .node place form) : ∃ front child back, parts form = front ++ child :: back ∧
      part ∈ child.subterms ∧ ∀ other ∈ front ++ back, part.refs.Disjoint other.refs := by
  rw [subterms_node] at member
  obtain ⟨child, childMember, inside⟩ :=
    List.mem_flatMap.1 ((List.mem_cons.1 member).resolve_left deeper)
  obtain ⟨front, back, split⟩ := List.append_of_mem childMember
  refine ⟨front, child, back, split, inside, fun other otherMember ref here there => ?_⟩
  rw [refs_node, split] at once
  have apart := (List.nodup_flatMap.1 (List.nodup_cons.1 once).2).2
  obtain ⟨-, behind, across⟩ := List.pairwise_append.1 apart
  have here := refs_subset inside here
  rcases List.mem_append.1 otherMember with before | after
  · exact across other before child (.head _) there here
  · exact (List.pairwise_cons.1 behind).1 other after here there

/-- What holds of a part and of all terms apart from it, and of every term around the part when it
holds of the children, holds of the whole. -/
theorem around_induction {motive : Outline → Prop} (once : outline.refs.Nodup)
    (within : part ∈ outline.subterms) (here : motive part)
    (apart : ∀ other : Outline, part.refs.Disjoint other.refs → motive other)
    (above : ∀ place form, place.ref ∉ part.refs → (∀ child ∈ parts form, motive child) →
      motive (.node place form)) : motive outline := by
  induction outline using Term.induction with
  | step place form ih =>
    by_cases isPart : part = .node place form
    · exact isPart ▸ here
    · obtain ⟨front, child, back, split, inside, others⟩ :=
        exists_child_of_subterm once within isPart
      have isChild : child ∈ parts form := by simp [split]
      refine above place form (fun inPart => ?_) fun other member => ?_
      · exact ref_not_mem_innerRefs once
          (mem_innerRefs.2 ⟨child, isChild, refs_subset inside inPart⟩)
      · by_cases same : other = child
        · exact same ▸ ih child isChild (once.sublist (refs_sublist
            (@child_mem_subterms _ (.node place form) _ isChild))) inside
        · refine apart other (others other ?_)
          rw [split, List.mem_append, List.mem_cons] at member
          exact List.mem_append.2 (member.imp_right fun behind => behind.resolve_left same)

variable (once : outline.refs.Nodup)

include once

/-- A part of a part changes the whole as the larger part does. -/
theorem swap_within {outer : Outline} (within : outer ∈ outline.subterms)
    (member : part ∈ outer.subterms) :
    swap part.ref new outline = swap outer.ref (swap part.ref new outer) outline := by
  have inOuter : part.ref ∈ outer.refs := mem_refs.2 ⟨part, member, rfl⟩
  refine @around_induction outline outer (fun whole =>
    swap part.ref new whole = swap outer.ref (swap part.ref new outer) whole) once within
    (swap_self outer _).symm (fun other disjoint => ?_) fun place form outside ih => ?_
  · rw [swap_of_not_mem (disjoint inOuter), swap_of_not_mem (disjoint (ref_mem_refs outer))]
  · have placePart : place.ref ≠ part.ref := fun same => outside (same ▸ inOuter)
    have placeOuter : place.ref ≠ outer.ref := fun same => outside (same ▸ ref_mem_refs outer)
    rw [swap_node, swap_node, if_neg placePart, if_neg placeOuter, mapChildren_congr ih]

/-- What came into a part that stays where it was is gone when another term comes in the place of
the part. -/
theorem swap_swap_of_ref {outer inner : Outline} (within : outer ∈ outline.subterms)
    (member : part ∈ outer.subterms) (stays : (swap part.ref inner outer).ref = outer.ref) :
    swap outer.ref new (swap part.ref inner outline) = swap outer.ref new outline := by
  have inOuter : part.ref ∈ outer.refs := mem_refs.2 ⟨part, member, rfl⟩
  refine @around_induction outline outer (fun whole =>
    swap outer.ref new (swap part.ref inner whole) = swap outer.ref new whole) once within
    ?_ (fun other disjoint => ?_) fun place form outside ih => ?_
  · rw [swap_self, ← stays, swap_self]
  · rw [swap_of_not_mem (disjoint inOuter)]
  · have placePart : place.ref ≠ part.ref := fun same => outside (same ▸ inOuter)
    have placeOuter : place.ref ≠ outer.ref := fun same => outside (same ▸ ref_mem_refs outer)
    rw [swap_node, if_neg placePart, swap_node, swap_node, if_neg placeOuter, if_neg placeOuter,
      mapChildren_mapChildren, mapChildren_congr (f := swap outer.ref new ∘ swap part.ref inner) ih]

/-- What came into a part is gone when another term comes in the place of the part. -/
theorem swap_swap {outer inner : Outline} (within : outer ∈ outline.subterms)
    (member : part ∈ outer.subterms) (same : inner.ref = part.ref) :
    swap outer.ref new (swap part.ref inner outline) = swap outer.ref new outline :=
  swap_swap_of_ref once within member (ref_swap same)

/-- A part in its own place changes nothing. -/
theorem swap_eq_self (within : part ∈ outline.subterms) :
    swap part.ref part outline = outline := by
  refine @around_induction outline part (fun whole => swap part.ref part whole = whole) once within
    (swap_self part part) (fun other disjoint => swap_of_not_mem (disjoint (ref_mem_refs part)))
    fun place form outside ih => ?_
  have other : place.ref ≠ part.ref := fun same => outside (same ▸ ref_mem_refs part)
  rw [swap_node, if_neg other, mapChildren_eq_self ih]

/-- The places of the whole are those of the part in their midst, and another part brings its own
ones instead. -/
theorem refs_swap (member : part ∈ outline.subterms) :
    ∃ before after, outline.refs = before ++ (part.refs ++ after) ∧
      (swap part.ref new outline).refs = before ++ (new.refs ++ after) := by
  induction outline using Term.induction with
  | step place form ih =>
    by_cases here : part = .node place form
    · subst here
      exact ⟨[], [], by simp, by rw [swap_self]; simp⟩
    · obtain ⟨front, child, back, split, inside, apart⟩ := exists_child_of_subterm once member here
      have childMember : child ∈ parts form := by simp [split]
      have placeOutside : place.ref ≠ part.ref := by
        rw [refs_node] at once
        refine fun same => (List.nodup_cons.1 once).1 (List.mem_flatMap.2 ⟨child, childMember, ?_⟩)
        exact same ▸ mem_refs.2 ⟨part, inside, rfl⟩
      have onceChild := once.sublist (refs_sublist
        (@child_mem_subterms _ (.node place form) _ childMember))
      obtain ⟨before, after, old, swapped⟩ := ih child childMember onceChild inside
      have unchanged (others : List Outline) (some : others ⊆ front ++ back) :
          others.map (swap part.ref new) = others := by
        conv => rhs; rw [← List.map_id others]
        refine List.map_congr_left fun other otherMember => swap_of_not_mem ?_
        exact apart other (some otherMember) (ref_mem_refs part)
      refine ⟨place.ref :: (front.flatMap refs ++ before), after ++ back.flatMap refs, ?_, ?_⟩
      · simp [split, old]
      · rw [swap_node, if_neg placeOutside, refs_node, parts_mapChildren, split, List.map_append,
          List.map_cons, unchanged front (by simp), unchanged back (by simp)]
        simp [swapped]

/-- The places after a swap are those outside the part and those of the new part. -/
theorem mem_refs_swap (member : part ∈ outline.subterms) {ref : Ref} :
    ref ∈ (swap part.ref new outline).refs ↔
    ref ∈ outline.refs ∧ ref ∉ part.refs ∨ ref ∈ new.refs := by
  obtain ⟨front, back, old, swapped⟩ := @refs_swap new _ _ once member
  rw [old] at once ⊢
  rw [swapped]
  simp only [List.nodup_append', List.disjoint_append_right] at once
  obtain ⟨-, ⟨-, -, apartBack⟩, apartFront, -⟩ := once
  have inFront : ref ∈ front → ref ∉ part.refs := fun ahead inside => apartFront ahead inside
  have inBack : ref ∈ back → ref ∉ part.refs := fun behind inside => apartBack inside behind
  simp only [List.mem_append]
  tauto

/-- No place occurs twice after a swap if none did before, and the new part has places of the whole
only from the old part. -/
theorem nodup_refs_swap (member : part ∈ outline.subterms)
    (onceNew : new.refs.Nodup) (origin : ∀ ref ∈ new.refs, ref ∈ outline.refs → ref ∈ part.refs) :
    (swap part.ref new outline).refs.Nodup := by
  obtain ⟨front, back, old, swapped⟩ := @refs_swap new _ _ once member
  rw [old] at once origin
  rw [swapped]
  simp only [List.nodup_append', List.disjoint_append_right] at once ⊢
  obtain ⟨onceFront, ⟨-, onceBack, apartBack⟩, apartFront, across⟩ := once
  refine ⟨onceFront, ⟨onceNew, onceBack, fun ref made behind => ?_⟩, fun ref ahead made =>
    ?_, across⟩
  · exact apartBack (origin ref made (by simp [behind])) behind
  · exact apartFront ahead (origin ref made (by simp [ahead]))

/-- A term around the part is around the new part afterwards. -/
theorem swap_mem_subterms {holder : Outline}
    (within : holder ∈ outline.subterms) (member : part ∈ holder.subterms) :
    swap part.ref new holder ∈ (swap part.ref new outline).subterms := by
  induction outline using Term.induction with
  | step place form ih =>
    by_cases here : holder = .node place form
    · rw [here]
      exact self_mem_subterms _
    · rw [subterms_node] at within
      obtain ⟨child, isChild, inside⟩ :=
        List.mem_flatMap.1 ((List.mem_cons.1 within).resolve_left here)
      have onceChild :=
        once.sublist (refs_sublist (@child_mem_subterms _ (.node place form) _ isChild))
      rw [refs_node] at once
      have placeOutside : place.ref ≠ part.ref := fun same => (List.nodup_cons.1 once).1 <| same ▸
        List.mem_flatMap.2 ⟨child, isChild, mem_refs.2 ⟨part, subterms_trans inside member, rfl⟩⟩
      rw [swap_node, if_neg placeOutside]
      refine mem_subterms_of_child ?_ (ih child isChild onceChild inside)
      rw [Term.children, Term.kind, parts_mapChildren]
      exact List.mem_map_of_mem isChild

/-- The new part is a part afterwards. -/
theorem mem_subterms_swap (member : part ∈ outline.subterms) :
    new ∈ (swap part.ref new outline).subterms := by
  have around := @swap_mem_subterms new _ _ once part member (self_mem_subterms part)
  rwa [swap_self] at around

/-- A term apart from the part stays. -/
theorem mem_subterms_swap_of_disjoint {other : Outline}
    (within : other ∈ outline.subterms) (member : part ∈ outline.subterms)
    (apart : other.refs.Disjoint part.refs) : other ∈ (swap part.ref new outline).subterms := by
  have absent : part.ref ∉ other.refs := fun shared => apart shared (ref_mem_refs part)
  have outside : ∀ term ∈ outline.subterms, term.ref = part.ref → other ∉ term.subterms := by
    intro term inside same below
    obtain rfl := subterm_unique once inside member same
    exact apart (ref_mem_refs other) (mem_refs.2 ⟨other, below, rfl⟩)
  clear once member apart
  induction outline using Term.induction with
  | step place form ih =>
    by_cases here : other = .node place form
    · rw [← here, swap_of_not_mem absent]
      exact self_mem_subterms other
    · have otherPlace : place.ref ≠ part.ref :=
        fun same => outside _ (self_mem_subterms _) same within
      rw [subterms_node] at within
      obtain ⟨child, isChild, inside⟩ :=
        List.mem_flatMap.1 ((List.mem_cons.1 within).resolve_left here)
      have below : child ∈ Term.subterms (.node place form) :=
        @child_mem_subterms _ (.node place form) _ isChild
      rw [swap_node, if_neg otherPlace]
      refine mem_subterms_of_child ?_ (ih child isChild inside fun term deeper =>
        outside term (subterms_trans below deeper))
      rw [Term.children, Term.kind, parts_mapChildren]
      exact List.mem_map_of_mem isChild

/-- What came in the place of a part gives its place to another term, which is then in the place of
the part. -/
theorem swap_swap_self {inner : Outline} (within : part ∈ outline.subterms)
    (onceAfter : (swap part.ref inner outline).refs.Nodup) :
    swap inner.ref new (swap part.ref inner outline) = swap part.ref new outline := by
  have outside : ∀ ref ∈ outline.refs, ref ∉ part.refs → ref ≠ inner.ref := by
    rintro _ inOutline notInPart rfl
    obtain ⟨front, back, old, swapped⟩ := @refs_swap inner _ _ once within
    rw [old] at inOutline
    rw [swapped] at onceAfter
    simp only [List.nodup_append', List.disjoint_append_right,
      List.mem_append] at onceAfter inOutline
    rcases inOutline with ahead | inPart | behind
    · exact onceAfter.2.2.1 ahead (ref_mem_refs inner)
    · exact notInPart inPart
    · exact onceAfter.2.1.2.2 (ref_mem_refs inner) behind
  refine @around_induction outline part
    (fun other => (∀ ref ∈ other.refs, ref ∉ part.refs → ref ≠ inner.ref) →
    swap inner.ref new (swap part.ref inner other) = swap part.ref new other) once within
    (fun _ => ?_)
    (fun other disjoint outside => ?_) (fun place form notInPart ih outside => ?_) outside
  · rw [swap_self, swap_self, swap_self]
  · have absent : inner.ref ∉ other.refs := fun inOther =>
      outside _ inOther (fun inPart => disjoint inPart inOther) rfl
    rw [swap_of_not_mem (disjoint (ref_mem_refs part)), swap_of_not_mem absent,
      swap_of_not_mem (disjoint (ref_mem_refs part))]
  · have placePart : place.ref ≠ part.ref := fun same => notInPart (same ▸ ref_mem_refs part)
    have placeInner : place.ref ≠ inner.ref := outside _ (ref_mem_refs _) notInPart
    have ih := fun child held => ih child held fun ref inChild => outside ref
      (by rw [refs_node]; exact .tail _ (List.mem_flatMap.2 ⟨child, held, inChild⟩))
    rw [swap_node, if_neg placePart, swap_node, swap_node, if_neg placeInner, if_neg placePart,
      mapChildren_mapChildren, mapChildren_congr (f := swap inner.ref new ∘ swap part.ref inner) ih]

end

/-- Changing the children leaves the rest of a form as it is. -/
theorem skeleton_mapChildren {α β : Type} (f : Term α → Term β) (form : Form α) :
    (mapChildren f form).skeleton = form.skeleton := Kind.skeleton_withSlots _ _ _ _

end Term

namespace Tree

open Term

/-- What a kind refers to stays when other children get the places of the children. -/
theorem Depicts.mapChildren {tree : Tree} {kind : NodeKind} {form : Form Place}
    (depicts : tree.Depicts kind form) {f : Outline → Outline}
    (same : ∀ child ∈ parts form, (f child).ref = child.ref) :
    tree.Depicts kind (Term.mapChildren f form) where
  slots := by
    have same : ∀ content ∈ form.slots, ∀ child ∈ content.terms, (f child).ref = child.ref :=
      fun content member child inside => same child (mem_parts.2 ⟨content, member, inside⟩)
    have slots := depicts.slots
    rw [slots_mapChildren, List.forall₂_map_right_iff]
    generalize kind.slots = slots, form.slots = contents at slots same
    induction slots with
    | nil => exact .nil
    | @cons slot content slots contents holds _ ih =>
      refine .cons ?_ (ih fun other member => same other (.tail _ member))
      have same := same content (.head _)
      match slot, content, holds with
      | .one ref, .one none, holds => exact holds
      | .one ref, .one (some child), ⟨place, named⟩ =>
        have same : (f child).ref = child.ref := same child (by simp)
        refine ⟨same.trans place, ?_⟩
        rintro _ ⟨rfl⟩
        exact same ▸ named child rfl
      | .many range, .many children, ⟨entries, inside⟩ =>
        refine ⟨entries.trans ?_, inside⟩
        rw [List.map_map]
        exact (List.map_congr_left fun child member => same child (by simpa using member)).symm
  skeleton := by
    rw [depicts.skeleton, Term.mapChildren, Kind.skeleton_withSlots]

/-- A term stands with another part in the place of one, where everything outside the part was left
alone and the new part brings in nothing from there. -/
theorem Stands.swap {changed moved : List Ref} {before after : Tree} {whole part new : Outline}
    (stands : before.Stands whole) (frame : Frame changed moved before after)
    (member : part ∈ whole.subterms) (standsNew : after.Stands new) (same : new.ref = part.ref)
    (changes : ∀ ref ∈ whole.refs, ref ∈ changed → ref ∈ part.refs)
    (moves : ∀ ref ∈ whole.refs, ref ∈ moved → ref ∈ part.innerRefs)
    (origin : ∀ ref ∈ new.refs, ref ∈ whole.refs → ref ∈ part.refs) :
    after.Stands (Term.swap part.ref new whole) := by
  suffices all : ∀ outline ∈ whole.subterms, part ∈ outline.subterms →
      (Term.swap part.ref new outline).All after.Shows ∧
        (Term.swap part.ref new outline).All after.Adopts by
    obtain ⟨shown, adopted⟩ := all whole (self_mem_subterms whole) member
    exact ⟨shown, adopted, nodup_refs_swap stands.once member standsNew.once origin⟩
  intro outline within inside
  induction outline using Term.induction with
  | step place form ih =>
    by_cases here : part = .node place form
    · rw [← here, swap_self]
      exact ⟨standsNew.shown, standsNew.adopted⟩
    · have standsHere := stands.subterm within
      obtain ⟨front, child, back, split, deeper, apart⟩ :=
        exists_child_of_subterm standsHere.once inside here
      have childMember : child ∈ parts form := by simp [split]
      have isOther : ∀ other ∈ parts form, other ≠ child → other ∈ front ++ back := by
        intro other otherMember differ
        rw [split, List.mem_append, List.mem_cons] at otherMember
        exact List.mem_append.2 (otherMember.imp_right fun behind => behind.resolve_left differ)
      have outside : place.ref ∉ part.refs := fun shared => ref_not_mem_innerRefs standsHere.once
        (mem_innerRefs.2 ⟨child, childMember, refs_subset deeper shared⟩)
      have each : ∀ other ∈ parts form, (Term.swap part.ref new other).All after.Shows ∧
          (Term.swap part.ref new other).All after.Adopts := by
        intro other otherMember
        have otherWithin :=
          subterms_trans within (@child_mem_subterms _ (.node place form) _ otherMember)
        by_cases sameChild : other = child
        · exact sameChild ▸ ih child childMember
            (subterms_trans within (@child_mem_subterms _ (.node place form) _ childMember)) deeper
        · have disjoint := apart other (isOther other otherMember sameChild)
          rw [swap_of_not_mem fun shared => disjoint (ref_mem_refs part) shared]
          have standsOther : after.Stands other := by
            refine (stands.subterm otherWithin).of_frame frame (fun ref inOther isChanged => ?_)
              fun ref inOther isMoved => ?_
            · exact disjoint (changes ref (refs_subset otherWithin inOther) isChanged) inOther
            · have inOther : ref ∈ other.refs := refs_eq other ▸ .tail _ inOther
              refine disjoint ?_ inOther
              rw [refs_eq]
              exact .tail _ (moves ref (refs_subset otherWithin inOther) isMoved)
          exact ⟨standsOther.shown, standsOther.adopted⟩
      have placeWithin : place.ref ∈ whole.refs := refs_subset within (by simp)
      have otherPlace : place.ref ≠ part.ref := fun here => outside (here ▸ ref_mem_refs part)
      have swapped {property : Outline → Prop} (each : ∀ other ∈ parts form,
          (Term.swap part.ref new other).All property) :
          ∀ other ∈ parts (Term.mapChildren (Term.swap part.ref new) form), other.All property := by
        intro other otherMember
        rw [parts_mapChildren] at otherMember
        obtain ⟨old, oldMember, rfl⟩ := List.mem_map.1 otherMember
        exact each old oldMember
      rw [swap_node, if_neg otherPlace]
      refine ⟨All.node_iff.2 ⟨?_, swapped fun other otherMember => (each other otherMember).1⟩,
        All.node_iff.2 ⟨?_, swapped fun other otherMember => (each other otherMember).2⟩⟩
      · obtain ⟨number, kind, isPlace, stored, depicts⟩ := standsHere.shown.here.of_frame frame
          fun isChanged => outside (changes _ placeWithin isChanged)
        exact ⟨number, kind, isPlace, stored, depicts.mapChildren fun _ _ => ref_swap same⟩
      · intro other otherMember
        rw [Term.children, Term.kind, parts_mapChildren] at otherMember
        obtain ⟨old, oldMember, rfl⟩ := List.mem_map.1 otherMember
        have oldWithin := subterms_trans within
          (@child_mem_subterms _ (.node place form) _ oldMember)
        obtain ⟨number, inStore, isPlace⟩ := (stands.shows oldWithin).hasRef
        have link := standsHere.adopted.here old oldMember
        rw [ref_swap same, isPlace]
        rw [isPlace] at link
        refine (frame.parents number inStore fun isMoved => ?_).trans link
        have inPart := moves _ (isPlace ▸ refs_subset oldWithin (ref_mem_refs old)) isMoved
        rw [← isPlace] at inPart
        by_cases sameChild : old = child
        · subst sameChild
          exact ref_not_mem_innerRefs (stands.subterm oldWithin).once
            (innerRefs_subset deeper inPart)
        · exact apart old (isOther old oldMember sameChild) (refs_eq part ▸ .tail _ inPart)
            (ref_mem_refs old)

end Tree

end Refactory
