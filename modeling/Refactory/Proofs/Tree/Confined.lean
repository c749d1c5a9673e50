import Refactory.Proofs.Code.Placing

/-!
# Changes within a node

A change of a program is confined to a node when all that it does to the program is to give the node
other children, some of which it had before (`Tree.Confines`). Then the nodes outside, and those
below the children that it kept, are what they were (`Tree.Confines.preserves_outside`,
`Tree.Confines.preserves_below`), and the node itself is where it was (`Tree.Confines.stays`). What
comes in the place of a part confines the change to any node around it (`Tree.confines_of_swap`),
and changes that are confined to a node one after the other are confined to it together
(`Tree.Confines.trans`).
-/
namespace Refactory

namespace Tree

open Term

/-- A node is attached before and after a change with the same content, children and parent. -/
structure Preserves (before after : Tree) (ref : Ref) : Prop where
  /-- It is still attached. -/
  attached : ref ∈ after.attached
  /-- It has the same kind. -/
  kind : after.kind ref = before.kind ref
  /-- It has the same place in the source. -/
  span : after.span ref = before.span ref
  /-- It has the same children. -/
  children : after.children ref = before.children ref
  /-- It has the same parent. -/
  parent : after.parent ref = before.parent ref

/-- A change of a program gives a node other children, of which it keeps some, and changes nothing
else. -/
structure Confines (before after : Tree) (whole holder : Outline) (kept : Outline → Prop)
    (form : Form Place) : Prop where
  /-- The node belongs to the program. -/
  within : holder ∈ whole.subterms
  /-- It has other children afterwards. -/
  program : after.IsProgram (Term.swap holder.ref (.node holder.note form) whole)
  /-- Some of its children are still there. -/
  held : ∀ child ∈ holder.children, kept child → child ∈ parts form
  /-- Nothing is changed outside. -/
  outside : before.Leaves after whole holder
  /-- Nothing is changed in these children. -/
  inside : ∀ child ∈ holder.children, kept child →
    ∀ ref ∈ child.refs, after.node ref = before.node ref

section

variable {before middle after : Tree} {whole holder part site new : Outline}
  {kept kept' : Outline → Prop} {form form' : Form Place}

/-- A node outside of a part is there with what comes in the place of the part. -/
theorem swap_mem_of_outside (once : whole.refs.Nodup) (isPart : part ∈ whole.subterms)
    {term : Outline}
    (within : term ∈ whole.subterms) (outside : term.ref ∉ part.refs) :
    Term.swap part.ref new term ∈ (Term.swap part.ref new whole).subterms := by
  by_cases inside : part.ref ∈ term.refs
  · obtain ⟨found, below, same⟩ := mem_refs.1 inside
    obtain rfl := subterm_unique once (subterms_trans within below) isPart same
    exact swap_mem_subterms once within below
  · rw [swap_of_not_mem inside]
    refine mem_subterms_swap_of_disjoint once within isPart fun ref here there => ?_
    obtain ⟨low, below, rfl⟩ := mem_refs.1 here
    obtain ⟨low', below', same⟩ := mem_refs.1 there
    obtain rfl :=
      subterm_unique once (subterms_trans isPart below') (subterms_trans within below) same
    rcases subterms_comparable once within isPart below below' with above | above
    · exact outside (mem_refs.2 ⟨term, above, rfl⟩)
    · exact inside (mem_refs.2 ⟨part, above, rfl⟩)

/-- What was outside of a part is not in what came in the place of the part. -/
theorem not_mem_of_swap (once : whole.refs.Nodup)
    (onceAfter : (Term.swap part.ref new whole).refs.Nodup) (within : part ∈ whole.subterms)
    {ref : Ref} (member : ref ∈ whole.refs) (outside : ref ∉ part.refs) : ref ∉ new.refs := by
  obtain ⟨front, back, split, splitNew⟩ := @refs_swap new whole part once within
  rw [splitNew] at onceAfter
  obtain ⟨-, onceBack, apart⟩ := List.nodup_append'.1 onceAfter
  rw [split, List.mem_append, List.mem_append] at member
  rcases member with inFront | inside | inBack
  · exact fun inside => apart inFront (List.mem_append_left _ inside)
  · exact absurd inside outside
  · exact fun inside => (List.nodup_append'.1 onceBack).2.2 inside inBack

namespace Confines

section

variable (confines : Confines before after whole holder kept form)
  (program : before.IsProgram whole)

include confines program

/-- What the program has become. -/
theorem holder_mem :
    .node holder.note form ∈ (Term.swap holder.ref (.node holder.note form) whole).subterms :=
  mem_subterms_swap program.stands.once confines.within

/-- The node, and a node outside of it, are where they were. -/
theorem stays {term : Outline}
    (within : term ∈ whole.subterms) (place : term = holder ∨ term.ref ∉ holder.refs) :
    term.ref ∈ after.attached ∧ after.parent term.ref = before.parent term.ref := by
  have once := program.stands.once
  set new : Outline := .node holder.note form
  have same (other : Outline) : (Term.swap holder.ref new other).ref = other.ref := ref_swap rfl
  have isThere : Term.swap holder.ref new term ∈ (Term.swap holder.ref new whole).subterms := by
    rcases place with rfl | outside
    · rw [swap_self]
      exact confines.holder_mem program
    · exact swap_mem_of_outside once confines.within within outside
  refine ⟨?_, ?_⟩
  · rw [confines.program.attached]
    exact mem_refs.2 ⟨_, isThere, same term⟩
  rcases program.parent_cases within with ⟨rfl, top⟩ | ⟨above, isAbove, isChild, up⟩
  · rw [top, ← same term, confines.program.root, confines.program.top]
  -- What is above is outside of the node.
  · have outside : above.ref ∉ holder.refs := fun inside => by
      obtain ⟨found, below, sameRef⟩ := mem_refs.1 inside
      obtain rfl := subterm_unique once (subterms_trans confines.within below) isAbove sameRef
      rcases place with rfl | outside
      · have shorter := length_subterms_lt isChild
        have longer := (subterms_sublist below).length_le
        omega
      · exact outside (mem_refs.2 ⟨term, subterms_child below isChild, rfl⟩)
    have isAboveThere :
        Term.swap holder.ref new above ∈ (Term.swap holder.ref new whole).subterms :=
      swap_mem_of_outside once confines.within isAbove outside
    have isChildThere :
        Term.swap holder.ref new term ∈ (Term.swap holder.ref new above).children := by
      have apart : above.ref ≠ holder.ref := fun here => outside (here ▸ ref_mem_refs holder)
      rw [Term.children, kind_swap_of_ne apart, parts_mapChildren]
      exact List.mem_map_of_mem isChild
    rw [up, ← same term, ← same above]
    exact confines.program.stands.parent isAboveThere isChildThere

/-- A node outside is what it was. -/
theorem preserves_outside {ref : Ref} (member : ref ∈ whole.refs)
    (outside : ref ∉ holder.refs) : before.Preserves after ref := by
  obtain ⟨term, within, rfl⟩ := mem_refs.1 member
  obtain ⟨attached, parent⟩ := confines.stays program within (.inr outside)
  have node := confines.outside _ member outside
  set new : Outline := .node holder.note form
  have same (other : Outline) : (Term.swap holder.ref new other).ref = other.ref := ref_swap rfl
  refine ⟨attached, congrArg Node.kind node, congrArg Node.span node, ?_, parent⟩
  have isThere : Term.swap holder.ref new term ∈ (Term.swap holder.ref new whole).subterms :=
    swap_mem_of_outside program.stands.once confines.within within outside
  have apart : term.ref ≠ holder.ref := fun here => outside (here ▸ ref_mem_refs holder)
  have children := (confines.program.stands.shows isThere).children
  rw [same] at children
  rw [children, (program.stands.shows within).children, Term.children, kind_swap_of_ne apart,
    parts_mapChildren, List.map_map]
  exact List.map_congr_left fun child _ => same child

/-- A node below a child that was kept is what it was. -/
theorem preserves_below {child : Outline} (isChild : child ∈ holder.children) (isKept : kept child)
    {ref : Ref} (member : ref ∈ child.refs) :
    before.Preserves after ref := by
  obtain ⟨term, below, rfl⟩ := mem_refs.1 member
  have isHolder := confines.holder_mem program
  have isChildThere : child ∈ Term.children (.node holder.note form) :=
    confines.held child isChild isKept
  have isThere := subterms_trans (subterms_child isHolder isChildThere) below
  have within := subterms_trans (subterms_child confines.within isChild) below
  have node := confines.inside child isChild isKept _ member
  refine ⟨?_, congrArg Node.kind node, congrArg Node.span node, ?_, ?_⟩
  · rw [confines.program.attached]
    exact mem_refs.2 ⟨term, isThere, rfl⟩
  · rw [(confines.program.stands.shows isThere).children, (program.stands.shows within).children]
  · rcases exists_holder below with rfl | ⟨above, isAbove, held⟩
    · rw [confines.program.stands.parent isHolder isChildThere,
        program.stands.parent confines.within isChild]
      rfl
    · have isBelow := child_mem_subterms isChild
      rw [program.stands.parent (subterms_trans
        (subterms_trans confines.within isBelow) isAbove) held, confines.program.stands.parent
        (subterms_trans (subterms_child isHolder isChildThere) isAbove) held]

/-- The node has its place in the source. -/
theorem span :
    after.span holder.ref = before.span holder.ref := by
  have there := (confines.program.stands.shows (confines.holder_mem program)).span
  exact there.trans (program.stands.shows confines.within).span.symm

end

/-- Two changes that are confined to a node, one after the other, are confined to it. -/
theorem trans (first : Confines before middle whole holder kept form)
    (program : before.IsProgram whole)
    (second : Confines middle after (Term.swap holder.ref (.node holder.note form) whole)
      (.node holder.note form) kept' form') :
    Confines before after whole holder (fun child => kept child ∧ kept' child) form' where
  within := first.within
  program := by
    have both := second.program
    have twice := @swap_swap (.node holder.note form') whole holder program.stands.once holder
      (.node holder.note form) first.within (self_mem_subterms holder) rfl
    exact twice ▸ both
  held child isChild isKept := second.held child (first.held child isChild isKept.1) isKept.2
  outside ref member outside := by
    have there : ref ∈ (Term.swap holder.ref (.node holder.note form) whole).refs :=
      (mem_refs_swap program.stands.once first.within).2 (.inl ⟨member, outside⟩)
    rw [second.outside ref there
      (not_mem_of_swap program.stands.once first.program.stands.once first.within
      member outside), first.outside ref member outside]
  inside child isChild isKept ref member := by
    rw [second.inside child (first.held child isChild isKept.1) isKept.2 ref member,
      first.inside child isChild isKept.1 ref member]

/-- A change that keeps some children keeps fewer. -/
theorem mono (confines : Confines before after whole holder kept form)
    (fewer : ∀ child ∈ holder.children, kept' child → kept child) :
    Confines before after whole holder kept' form where
  __ := confines
  held child isChild isKept := confines.held child isChild (fewer child isChild isKept)
  inside child isChild isKept := confines.inside child isChild (fewer child isChild isKept)

end Confines

/-- What a change of a part, or of a part and of the node above it, spares is outside of any node
with the part in or at one of its children, or in its other children. -/
theorem confines_of_spares (program : before.IsProgram whole) (within : holder ∈ whole.subterms)
    (isChild : site ∈ holder.children) (isPart : part ∈ site.subterms)
    (changed : after.IsProgram (Term.swap holder.ref (.node holder.note form) whole))
    (spares : Spares before after whole part)
    (held : ∀ child ∈ holder.children, child ≠ site → child ∈ parts form) :
    Confines before after whole holder (· ≠ site) form := by
  have standsHolder := program.stands.subterm within
  have isSite := child_mem_subterms isChild
  -- What is above the part is the node or lies in the child.
  have above : before.parent part.ref = holder.ref ∨ before.parent part.ref ∈ site.refs := by
    rcases exists_holder isPart with rfl | ⟨inner, below, held⟩
    · exact .inl (program.stands.parent within isChild)
    · exact .inr (program.stands.parent (subterms_trans (subterms_trans within isSite) below) held ▸
        mem_refs.2 ⟨inner, below, rfl⟩)
  refine ⟨within, changed, held, fun ref member outside =>
    ?_, fun child held other ref member => ?_⟩
  · refine spares ref member
      (fun inside => outside (refs_subset (subterms_trans isSite isPart) inside)) fun isAbove => ?_
    exact outside (above.elim (fun same => isAbove.trans same ▸ ref_mem_refs holder)
      fun inside => refs_subset isSite (isAbove ▸ inside))
  · have disjoint := disjoint_of_nodup standsHolder.children.1.once held isChild other
    refine spares ref (refs_subset (subterms_child within held) member)
      (fun inside => disjoint member (refs_subset isPart inside)) fun isAbove => ?_
    rcases above with same | inside
    · exact standsHolder.children.2 (List.mem_flatMap.2 ⟨child, held, isAbove.trans same ▸ member⟩)
    · exact disjoint member (isAbove ▸ inside)

/-- What comes into a program in the place of a part confines the change to every node with the part
in or at a child. -/
theorem confines_of_swap (program : before.IsProgram whole) (within : holder ∈ whole.subterms)
    (isChild : site ∈ holder.children)
    (isPart : part ∈ site.subterms) (changed : after.IsProgram (Term.swap part.ref new whole))
    (spares : Spares before after whole part) :
    Confines before after whole holder (· ≠ site)
    (mapChildren (Term.swap part.ref new) holder.kind) := by
  have once := program.stands.once
  have standsHolder := program.stands.subterm within
  have swapped : Term.swap part.ref new holder
      = .node holder.note (mapChildren (Term.swap part.ref new) holder.kind) := by
    have apart := ref_ne_of_child standsHolder.once isChild isPart
    rcases holder with ⟨place, form⟩
    exact (swap_node ..).trans (if_neg apart)
  refine confines_of_spares program within isChild isPart ?_ spares fun child held other => ?_
  · rw [← swapped, ← swap_within once within (subterms_trans (child_mem_subterms isChild) isPart)]
    exact changed
  · rw [parts_mapChildren]
    refine List.mem_map.2 ⟨child, held, swap_of_not_mem fun inside => ?_⟩
    exact disjoint_of_nodup standsHolder.children.1.once held isChild other inside
      (refs_subset isPart (ref_mem_refs part))

/-- What comes into a program in the place of a part confines the change. -/
theorem Places.confines (places : Places before after whole part new)
    (program : before.IsProgram whole)
    (within : holder ∈ whole.subterms) (isChild : site ∈ holder.children)
    (isPart : part ∈ site.subterms) :
    Confines before after whole holder (· ≠ site)
    (mapChildren (Term.swap part.ref new) holder.kind) :=
  confines_of_swap program within isChild isPart places.program places.spares

/-- Statements that come in the place of one confine the change to the node above it. -/
theorem Becomes.exists_confines {statements : List Outline} {result : Outline}
    (becomes : Becomes whole site statements result) (program : before.IsProgram whole)
    (within : holder ∈ whole.subterms) (isChild : site ∈ holder.children)
    (changed : after.IsProgram result) (spares : Spares before after whole site) :
    ∃ form, Confines before after whole holder (· ≠ site) form := by
  cases becomes with
  | @listed holder' within' held' fits =>
    have stands := program.stands
    obtain rfl := subterm_unique stands.once within within'
      ((stands.parent within isChild).symm.trans (stands.parent within' held'))
    refine ⟨_, confines_of_spares program within isChild (self_mem_subterms site) changed spares
      fun child held other => ?_⟩
    obtain ⟨front, back, split⟩ := List.append_of_mem isChild
    have once := (stands.subterm within).children.1.once
    have others : ∀ other ∈ front ++ back, other.ref ≠ site.ref := fun other member same => by
      rw [split] at once
      have apart :=
        (List.nodup_append'.1 ((List.perm_middle.flatMap_right refs).nodup_iff.1 once)).2.2
      exact apart (ref_mem_refs site)
        (List.mem_flatMap.2 ⟨other, member, same ▸ ref_mem_refs other⟩)
    rw [parts_splice_child fits split others]
    rw [split, List.mem_append, List.mem_cons] at held
    simp only [List.mem_append]
    exact held.elim (fun ahead => .inl (.inl ahead)) fun behind => .inr (behind.resolve_left other)
  | blocked place =>
    exact ⟨_, confines_of_swap program within isChild (self_mem_subterms site) changed spares⟩

end

end Tree

end Refactory
