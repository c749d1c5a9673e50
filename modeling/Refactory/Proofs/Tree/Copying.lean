import Refactory.Proofs.Tree.Placing

/-!
# Copying a term

A copy of a node is built of new nodes alone and has the spans and the shape of the node
(`Tree.duplicate_adds`). Only the kinds of the nodes are read, so what is copied may stand anywhere.
-/
namespace Refactory

variable {term : Outline}

namespace Tree

open Term

/-- What copying a term does, wherever nothing that was stored is changed. -/
def Copies (copy : Ref → Edit Ref) (term : Outline) : Prop :=
  ∀ tree : Tree, tree.Stored → term.All tree.Shows → ∃ outline after,
    copy term.ref tree = (outline.ref, after) ∧ Adds tree after [outline] ∧
      Records outline (term.map Place.span)

section

variable {copy : Ref → Edit Ref} {tree : Tree}

/-- Terms are copied one after the other. -/
theorem mapM_copies {terms : List Outline} (copies : ∀ term ∈ terms, Copies copy term)
    (stored : tree.Stored) (shown : ∀ term ∈ terms, term.All tree.Shows) :
    ∃ outlines after, (terms.map Term.ref).mapM copy tree = (outlines.map Term.ref, after) ∧
      Adds tree after outlines ∧
      List.Forall₂ Records outlines (terms.map (Term.map Place.span)) := by
  induction terms generalizing tree with
  | nil => exact ⟨[], tree, rfl, .nil tree, .nil⟩
  | cons term terms ih =>
    obtain ⟨outline, middle, copied, adds, records⟩ :=
      copies term (.head _) tree stored (shown term (.head _))
    obtain ⟨outlines, after, copiedOthers, addsOthers, recordsOthers⟩ :=
      ih (fun other member => copies other (.tail _ member)) (adds.frame.stored stored)
        fun other member => adds.keeps.shown (shown other (.tail _ member))
    refine ⟨outline :: outlines, after, ?_, adds.beside addsOthers, .cons records recordsOthers⟩
    rw [List.map_cons, mapM_cons, copied, copiedOthers]
    rfl

/-- A child position is copied with what it holds. -/
theorem duplicateSlot_fills {slot : NodeSlot} {content : Slot (Option Outline) (List Outline)}
    (holds : tree.Holds slot content) (copies : ∀ child ∈ content.terms, Copies copy child)
    (stored : tree.Stored) (shown : ∀ child ∈ content.terms, child.All tree.Shows) :
    ∃ slot' after, duplicateSlot copy slot tree = (slot', after) ∧ Slot.Alike slot slot' ∧
      Fills tree after [slot'] [mapSlot (Term.map Place.span) content] := by
  rcases slot with ref | range <;> rcases content with (_ | child) | children
  · obtain rfl : none = ref := holds.1
    exact ⟨.one none, tree, rfl, .one, stored, [.one none], .cons ⟨rfl, by simp⟩ .nil,
      .cons .absent .nil, .nil tree⟩
  · obtain rfl : child.ref = ref := holds.1
    obtain ⟨number, place⟩ := Option.ne_none_iff_exists'.1 (holds.2 child rfl)
    obtain ⟨outline, after, copied, adds, records⟩ :=
      copies child (.head _) tree stored (shown child (.head _))
    refine ⟨.one outline.ref, after, ?_, .one, .one stored adds records⟩
    change child.ref = some number at place
    rw [place] at copied
    rw [place]
    change (Slot.one (copy (some number) tree).1, (copy (some number) tree).2) = _
    rw [copied]
  · cases holds
  · cases holds
  · cases holds
  · obtain ⟨outlines, middle, copied, adds, records⟩ := mapM_copies copies stored shown
    refine ⟨_, _, ?_, .many, .list stored adds records⟩
    have entries : tree.items range = children.map Term.ref := holds.1
    change (Slot.many (allocList ((tree.items range).mapM copy tree).1
        ((tree.items range).mapM copy tree).2).1,
      (allocList ((tree.items range).mapM copy tree).1 ((tree.items range).mapM copy tree).2).2) = _
    change (children.map Term.ref).mapM copy tree = _ at copied
    rw [entries, copied]

/-- Child positions are copied one after the other. -/
theorem duplicateSlots_fill {slots : List NodeSlot}
    {contents : List (Slot (Option Outline) (List Outline))}
    (holds : List.Forall₂ tree.Holds slots contents)
    (copies : ∀ content ∈ contents, ∀ child ∈ content.terms, Copies copy child)
    (stored : tree.Stored)
    (shown : ∀ content ∈ contents, ∀ child ∈ content.terms, child.All tree.Shows) :
    ∃ slots' after, slots.mapM (duplicateSlot copy) tree = (slots', after) ∧
      List.Forall₂ Slot.Alike slots slots' ∧
      Fills tree after slots' (contents.map (mapSlot (Term.map Place.span))) := by
  induction slots generalizing tree contents with
  | nil =>
    cases holds
    exact ⟨[], tree, rfl, .nil, .nil stored⟩
  | cons slot slots ih =>
    cases holds with
    | @cons _ content _ contents first others =>
      obtain ⟨slot', middle, copied, alike, fills⟩ := duplicateSlot_fills first
        (copies content (.head _)) stored (shown content (.head _))
      have grows := fills.frame
      obtain ⟨slots', after, copiedOthers, alikeOthers, fillsOthers⟩ :=
        ih (others.imp fun _ _ => Holds.of_frame grows)
          (fun other member => copies other (.tail _ member)) fills.stored
          fun other member child inside =>
          grows.keeps.shown (shown other (.tail _ member) child inside)
      refine ⟨slot' :: slots', after, ?_, .cons alike alikeOthers, fills.append fillsOthers⟩
      rw [mapM_cons, copied, copiedOthers]

end

/-- Copying down to a depth that suffices copies the whole term. -/
theorem duplicateWithin_copies {bound : Nat} (enough : term.subterms.length ≤ bound) :
    Copies (duplicateWithin bound) term := by
  induction bound generalizing term with
  | zero =>
    rw [subterms_eq] at enough
    exact absurd enough (by simp)
  | succ bound ih =>
    intro tree stored shown
    rcases term with ⟨place, form⟩
    have shows := shown.here
    have below : ∀ content ∈ form.slots, ∀ child ∈ content.terms,
        child ∈ Term.children (.node place form) :=
      fun content member child inside => mem_parts.2 ⟨content, member, inside⟩
    obtain ⟨slots, after, copied, alike, fills⟩ :=
      @duplicateSlots_fill (duplicateWithin bound) _ _ _
      shows.depicts.slots
      (fun content member child inside => by
        have shorter := length_subterms_lt (below content member child inside)
        exact ih (by omega))
      stored fun content member child inside => shown.child (below content member child inside)
    have node : tree.node place.ref = ⟨tree.kind place.ref, place.span⟩ := shows.node_eq
    set kind := (tree.kind place.ref).withSlots none .empty slots
    have filled : kind.slots = slots := Kind.slots_withSlots _ alike
    have sources :
        (Term.mapForm Place.span form).slots = form.slots.map (mapSlot (Term.map Place.span)) := by
      rw [mapForm_eq, slots_mapChildren]
    have skeleton : kind.skeleton = (Term.mapForm Place.span form).skeleton := by
      rw [mapForm_eq, Term.mapChildren, Kind.skeleton_withSlots, Kind.skeleton_withSlots]
      exact shows.depicts.skeleton
    rw [← filled] at fills
    obtain ⟨outline, adds, same, records⟩ := Fills.alloc (sources ▸ fills) skeleton place.span
    refine ⟨outline, _, ?_, adds, by rwa [Term.map]⟩
    change alloc ((tree.node place.ref).kind.withSlots none .empty
      ((tree.node place.ref).kind.slots.mapM (duplicateSlot (duplicateWithin bound)) tree).1)
      (tree.node place.ref).span
      ((tree.node place.ref).kind.slots.mapM (duplicateSlot (duplicateWithin bound)) tree).2 = _
    change (tree.kind place.ref).slots.mapM (duplicateSlot (duplicateWithin bound)) tree
      = _ at copied
    simp only [node, copied]
    exact congrArg (·, _) same

/-- Copying a term that is shown adds a term of the same spans and shape. -/
theorem duplicate_adds {tree : Tree} (stored : tree.Stored)
    (shown : term.All tree.Shows) (once : term.refs.Nodup) : ∃ outline after,
      duplicate term.ref tree = (outline.ref, after) ∧ Adds tree after [outline] ∧
        Records outline (term.map Place.span) :=
  duplicateWithin_copies (Nat.le_succ_of_le (length_le_of_shown shown once)) tree stored shown

/-- Copying a term that is shown builds a term of the same spans and shape. -/
theorem duplicate_copies {tree : Tree} (stored : tree.Stored)
    (shown : term.All tree.Shows) (once : term.refs.Nodup) : ∃ outline after,
      duplicate term.ref tree = (outline.ref, after) ∧ Builds [] tree after [outline] ∧
        Records outline (term.map Place.span) := by
  obtain ⟨outline, after, copied, adds, records⟩ := duplicate_adds stored shown once
  exact ⟨outline, after, copied, adds.toBuilds, records⟩

end Tree

end Refactory
