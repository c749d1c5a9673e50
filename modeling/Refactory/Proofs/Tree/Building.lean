import Mathlib.Data.List.Flatten
import Refactory.Proofs.Tree.Frame

/-!
# Building terms in a tree

What an edit builds stands apart from all that it was not given. `Tree.Builds` says this of an edit
that takes some terms and makes others of them. Such edits can be done one after the other
(`Tree.Builds.next`), and all the rest stands as before.
-/
namespace Refactory

/-- The roots of terms are some of their places, in the same order. -/
theorem Term.roots_sublist
    (terms : List Outline) : (terms.map ref).Sublist (terms.flatMap refs) := by
  induction terms with
  | nil => exact .slnil
  | cons term terms ih =>
    rw [List.map_cons, List.flatMap_cons, refs_eq]
    exact .cons_cons _ (ih.trans (List.sublist_append_right _ _))

namespace Tree

open Term

/-- Terms that stand in a tree at different places. -/
structure StandsAll (tree : Tree) (terms : List Outline) : Prop where
  /-- Each of them stands. -/
  each : ∀ term ∈ terms, tree.Stands term
  /-- No node belongs to two of them. -/
  once : (terms.flatMap refs).Nodup

namespace StandsAll

variable {tree : Tree} {term : Outline} {terms others : List Outline}

theorem nil : tree.StandsAll [] := ⟨by simp, by simp⟩

theorem singleton_iff : tree.StandsAll [term] ↔ tree.Stands term := by
  constructor
  · exact fun all => all.each term (.head _)
  · exact fun stands => ⟨by simpa using stands, by simpa using stands.once⟩

theorem append_iff : tree.StandsAll (terms ++ others) ↔ tree.StandsAll terms ∧
    tree.StandsAll others ∧ (terms.flatMap refs).Disjoint (others.flatMap refs) := by
  constructor
  · rintro ⟨each, once⟩
    rw [List.flatMap_append, List.nodup_append'] at once
    exact ⟨⟨fun term member => each term (List.mem_append_left _ member), once.1⟩,
      ⟨fun term member => each term (List.mem_append_right _ member), once.2.1⟩, once.2.2⟩
  · rintro ⟨first, second, apart⟩
    refine ⟨fun term member => ?_, ?_⟩
    · exact (List.mem_append.1 member).elim (first.each term) (second.each term)
    · rw [List.flatMap_append, List.nodup_append']
      exact ⟨first.once, second.once, apart⟩

theorem cons_iff : tree.StandsAll (term :: others) ↔ tree.Stands term ∧ tree.StandsAll others ∧
    term.refs.Disjoint (others.flatMap refs) := by
  rw [← List.singleton_append, append_iff, singleton_iff]
  simp

theorem perm (all : tree.StandsAll terms) (same : terms.Perm others) : tree.StandsAll others where
  each term member := all.each term (same.mem_iff.2 member)
  once := (same.flatMap_right refs).nodup_iff.1 all.once

theorem sublist (all : tree.StandsAll terms) (some : others.Sublist terms) :
    tree.StandsAll others where
  each term member := all.each term (some.subset member)
  once := all.once.sublist (some.flatMap refs)

/-- The nodes of terms that stand are stored. -/
theorem hasRef (all : tree.StandsAll terms) {ref : Ref} (member : ref ∈ terms.flatMap refs) :
    tree.HasRef ref := by
  obtain ⟨term, inside, within⟩ := List.mem_flatMap.1 member
  exact (all.each term inside).hasRef within

/-- Two different terms have no node in common. -/
theorem disjoint (all : tree.StandsAll terms) {other : Outline} (member : term ∈ terms)
    (memberOther : other ∈ terms) (differ : term ≠ other) : term.refs.Disjoint other.refs :=
  disjoint_of_nodup all.once member memberOther differ

/-- Terms stand where nothing but new nodes was added. -/
theorem of_frame {after : Tree} (all : tree.StandsAll terms) (frame : Frame [] [] tree after) :
    after.StandsAll terms where
  each term member := (all.each term member).of_growth frame
  once := all.once

/-- Nothing below the root of one of the terms is the root of another. -/
theorem innerRefs_not_root (all : tree.StandsAll terms) (member : term ∈ terms) {ref : Ref}
    (inside : ref ∈ term.innerRefs) : ref ∉ terms.map Term.ref := by
  intro isRoot
  obtain ⟨other, memberOther, rfl⟩ := List.mem_map.1 isRoot
  have within : other.ref ∈ term.refs := refs_eq term ▸ .tail _ inside
  by_cases same : term = other
  · subst same
    exact ref_not_mem_innerRefs (all.each term member).once inside
  · exact all.disjoint member memberOther same within (ref_mem_refs other)

end StandsAll

/-- The children of a term that stands stand apart from each other and from their holder. -/
theorem Stands.children {tree : Tree} {term : Outline} (stands : tree.Stands term) :
    tree.StandsAll term.children ∧ term.ref ∉ term.children.flatMap refs := by
  have once := stands.once
  rw [refs_eq] at once
  obtain ⟨outside, once⟩ := List.nodup_cons.1 once
  exact ⟨⟨fun child member => stands.subterm (child_mem_subterms member), once⟩, outside⟩

/-- An edit that takes the nodes of some terms and makes other terms of them and of new nodes. -/
structure Builds (inputs : List Outline) (before after : Tree) (outputs : List Outline) : Prop where
  /-- Links lead to new parents at most from what is taken. -/
  frame : Frame [] (inputs.flatMap refs) before after
  /-- What is made stands. -/
  stands : after.StandsAll outputs
  /-- What is not taken is not used. -/
  origin : ∀ ref ∈ outputs.flatMap refs, before.HasRef ref → ref ∈ inputs.flatMap refs

/-- All nodes are as they were, wherever their links may lead now. -/
def Keeps (before after : Tree) : Prop := ∃ moved, Frame [] moved before after

/-- What changes no node keeps all of them. -/
theorem Frame.keeps {moved : List Ref} {before after : Tree} (frame : Frame [] moved before after) :
    Keeps before after := ⟨moved, frame⟩

namespace Keeps

variable {before middle after : Tree}

theorem refl (tree : Tree) : Keeps tree tree := ⟨[], .refl tree⟩

theorem trans (first : Keeps before middle) (second : Keeps middle after) : Keeps before after := by
  obtain ⟨moved, first⟩ := first
  obtain ⟨moved', second⟩ := second
  refine ⟨moved ++ moved', ?_⟩
  refine (first.mono (fun _ member _ => member) fun ref member _ => ?_).trans second
    (fun _ member _ => member) fun ref member _ => ?_
  · exact List.mem_append_left _ member
  · exact List.mem_append_right _ member

/-- What is shown is shown after nothing but links was touched. -/
theorem shown {term : Outline} (keeps : Keeps before after) (shown : term.All before.Shows) :
    term.All after.Shows := by
  obtain ⟨moved, frame⟩ := keeps
  exact shown.mono fun _ shows => shows.of_frame frame List.not_mem_nil

end Keeps

namespace Builds

variable {before middle after : Tree}
  {inputs outputs others middles inputs' outputs' : List Outline}

/-- Nothing but links is touched. -/
theorem keeps (builds : Builds inputs before after outputs) : Keeps before after :=
    builds.frame.keeps

theorem refl (all : before.StandsAll inputs) : Builds inputs before before inputs where
  frame := .refl before
  stands := all
  origin _ member _ := member

/-- What is not taken stands afterwards, apart from what is made. -/
theorem apart (builds : Builds inputs before after outputs)
    (all : before.StandsAll (inputs ++ others)) : after.StandsAll (outputs ++ others) := by
  obtain ⟨-, rest, apart⟩ := StandsAll.append_iff.1 all
  refine StandsAll.append_iff.2 ⟨builds.stands, ⟨fun term member => ?_, rest.once⟩, ?_⟩
  · refine (rest.each term member).of_frame builds.frame (fun _ _ => by simp) fun ref inside => ?_
    refine fun moved => apart moved (List.mem_flatMap.2 ⟨term, member, ?_⟩)
    rw [refs_eq]
    exact .tail _ inside
  · exact fun ref made other => apart (builds.origin ref made (rest.hasRef other)) other

/-- Terms that are not taken may be named on both sides. -/
theorem append (builds : Builds inputs before after outputs)
    (all : before.StandsAll (inputs ++ others)) :
    Builds (inputs ++ others) before after (outputs ++ others) where
  frame := builds.frame.mono (fun _ => by simp) fun ref member _ => by
    rw [List.flatMap_append]
    exact List.mem_append_left _ member
  stands := builds.apart all
  origin ref member stored := by
    rw [List.flatMap_append, List.mem_append] at member ⊢
    exact member.imp_left fun made => builds.origin ref made stored

/-- One edit after the other. -/
theorem trans (first : Builds inputs before middle middles)
    (second : Builds middles middle after outputs) : Builds inputs before after outputs where
  frame := first.frame.trans second.frame (fun _ => by simp) first.origin
  stands := second.stands
  origin ref member stored :=
    first.origin ref (second.origin ref member (stored.of_frame first.frame)) stored

/-- The next edit takes some of the terms that were made and leaves the others alone. -/
theorem next (first : Builds inputs before middle (middles ++ others))
    (second : Builds middles middle after outputs) :
    Builds inputs before after (outputs ++ others) :=
  first.trans (second.append first.stands)

/-- What is built of nothing comes beside what was made before. -/
theorem beside (first : Builds inputs before middle outputs)
    (second : Builds [] middle after outputs') :
    Builds inputs before after (outputs ++ outputs') := by
  have all : middle.StandsAll ([] ++ outputs) := first.stands
  have both := first.trans (second.append all)
  exact {
    frame := both.frame
    stands := both.stands.perm List.perm_append_comm
    origin := fun ref member =>
      both.origin ref ((List.perm_append_comm.flatMap_right refs).mem_iff.1 member) }

/-- What stands where nothing is touched stands afterwards. -/
theorem grow (builds : Builds inputs before middle outputs) (frame : Frame [] [] middle after) :
    Builds inputs before after outputs where
  frame := builds.frame.grow frame
  stands := builds.stands.of_frame frame
  origin := builds.origin

theorem perm (builds : Builds inputs before after outputs) (same : outputs.Perm outputs') :
    Builds inputs before after outputs' where
  frame := builds.frame
  stands := builds.stands.perm same
  origin ref member := builds.origin ref ((same.flatMap_right refs).mem_iff.2 member)

/-- What is made may be left aside. -/
theorem sublist (builds : Builds inputs before after outputs) (some : outputs'.Sublist outputs) :
    Builds inputs before after outputs' where
  frame := builds.frame
  stands := builds.stands.sublist some
  origin ref member := builds.origin ref ((some.flatMap refs).subset member)

/-- Terms around those that are taken may be named instead. -/
theorem of_refs_subset (builds : Builds inputs before after outputs)
    (within : inputs.flatMap refs ⊆ inputs'.flatMap refs) :
    Builds inputs' before after outputs where
  frame := builds.frame.mono (fun _ => by simp) fun ref member _ => within member
  stands := builds.stands
  origin ref member stored := within (builds.origin ref member stored)

/-- More terms may be named as taken. -/
theorem of_subset (builds : Builds inputs before after outputs) (more : inputs ⊆ inputs') :
    Builds inputs' before after outputs := by
  refine builds.of_refs_subset fun ref member => ?_
  obtain ⟨term, taken, inside⟩ := List.mem_flatMap.1 member
  exact List.mem_flatMap.2 ⟨term, more taken, inside⟩

/-- The links of what is not taken lead where they led before. -/
theorem parent_eq (builds : Builds inputs before after outputs)
    (all : before.StandsAll (inputs ++ others)) {ref : Ref} (member : ref ∈ others.flatMap refs) :
    after.parent ref = before.parent ref := by
  obtain ⟨-, standing, apart⟩ := StandsAll.append_iff.1 all
  obtain ⟨number, inside, rfl⟩ := standing.hasRef member
  exact builds.frame.parents number inside fun isMoved => apart isMoved member

end Builds

/-- An edit that touches nothing, and terms that are new or found within some terms. -/
structure Finds (inputs : List Outline) (before after : Tree) (outputs : List Outline) : Prop where
  /-- Nothing but new nodes. -/
  frame : Frame [] [] before after
  /-- What is found stands. -/
  stands : after.StandsAll outputs
  /-- What is not new lies within the terms. -/
  origin : ∀ ref ∈ outputs.flatMap refs, before.HasRef ref → ref ∈ inputs.flatMap refs

namespace Finds

variable {before middle after : Tree} {inputs inputs' outputs outputs' : List Outline}

/-- What is found within what was found is found. -/
theorem trans (first : Finds inputs before middle outputs)
    (second : Finds outputs middle after outputs') :
    Finds inputs before after outputs' where
  frame := first.frame.grow second.frame
  stands := second.stands
  origin ref member stored :=
    first.origin ref (second.origin ref member (stored.of_frame first.frame)) stored

/-- The children of a term are found within it. -/
theorem children {term : Outline}
    (stands : before.Stands term) : Finds [term] before before term.children where
  frame := .refl before
  stands := stands.children.1
  origin ref member _ := by
    rw [List.flatMap_singleton, refs_eq]
    exact .tail _ member

/-- Terms that stand are found within themselves. -/
theorem refl (all : before.StandsAll inputs) : Finds inputs before before inputs where
  frame := .refl before
  stands := all
  origin _ member _ := member

/-- What is found within different terms may be put side by side. -/
theorem append (first : Finds inputs before middle outputs)
    (second : Finds inputs' middle after outputs')
    (all : before.StandsAll (inputs ++ inputs')) :
    Finds (inputs ++ inputs') before after (outputs ++ outputs') where
  frame := first.frame.grow second.frame
  stands := by
    obtain ⟨-, standing, apart⟩ := StandsAll.append_iff.1 all
    refine StandsAll.append_iff.2 ⟨⟨fun term member => ?_, first.stands.once⟩, second.stands, ?_⟩
    · exact (first.stands.each term member).of_growth second.frame
    · intro ref here there
      have inSecond := second.origin ref there (first.stands.hasRef here)
      exact apart (first.origin ref here (standing.hasRef inSecond)) inSecond
  origin ref member stored := by
    rw [List.flatMap_append, List.mem_append] at member ⊢
    exact member.imp (first.origin ref · stored)
      fun inside => second.origin ref inside (stored.of_frame first.frame)

end Finds

/-- An edit that touches nothing outside a scope and makes terms of nodes in the scope and of new
ones. -/
structure Reworks (scope : List Ref) (before after : Tree) (outputs : List Outline) : Prop where
  /-- Nodes and links outside the scope are as they were. -/
  frame : Frame scope scope before after
  /-- What is made stands. -/
  stands : after.StandsAll outputs
  /-- What is outside the scope is not used. -/
  origin : ∀ ref ∈ outputs.flatMap refs, before.HasRef ref → ref ∈ scope

namespace Reworks

variable {before middle after : Tree} {scope wider : List Ref}
  {middles outputs others : List Outline}

/-- Nothing is touched to begin with. -/
theorem refl (all : before.StandsAll outputs) (within : outputs.flatMap refs ⊆ scope) :
    Reworks scope before before outputs where
  frame := .refl before
  stands := all
  origin _ member _ := within member

/-- A scope may be widened. -/
theorem mono (reworks : Reworks scope before after outputs) (within : scope ⊆ wider) :
    Reworks wider before after outputs where
  frame := reworks.frame.mono (fun _ member _ => within member) fun _ member _ => within member
  stands := reworks.stands
  origin ref member stored := within (reworks.origin ref member stored)

theorem perm (reworks : Reworks scope before after outputs) (same : outputs.Perm others) :
    Reworks scope before after others where
  frame := reworks.frame
  stands := reworks.stands.perm same
  origin ref member := reworks.origin ref ((same.flatMap_right refs).mem_iff.2 member)

/-- What is made may be left aside. -/
theorem sublist (reworks : Reworks scope before after outputs) (some : others.Sublist outputs) :
    Reworks scope before after others where
  frame := reworks.frame
  stands := reworks.stands.sublist some
  origin ref member := reworks.origin ref ((some.flatMap refs).subset member)

/-- What stands outside the scope still stands. -/
theorem apart (reworks : Reworks scope before after outputs) (all : before.StandsAll others)
    (disjoint : (others.flatMap refs).Disjoint scope) : after.StandsAll others where
  each term member := by
    refine (all.each term member).of_frame reworks.frame (fun ref inside => ?_) fun ref inside => ?_
    · exact disjoint (List.mem_flatMap.2 ⟨term, member, inside⟩)
    · exact disjoint (List.mem_flatMap.2 ⟨term, member, refs_eq term ▸ .tail _ inside⟩)
  once := all.once

/-- Terms outside the scope may be taken into it. -/
theorem add (reworks : Reworks scope before after outputs) (all : before.StandsAll others)
    (disjoint : (others.flatMap refs).Disjoint scope) :
    Reworks (others.flatMap refs ++ scope) before after (others ++ outputs) where
  frame := (reworks.mono (List.subset_append_right _ _)).frame
  stands := by
    refine StandsAll.append_iff.2
      ⟨reworks.apart all disjoint, reworks.stands, fun ref here there => ?_⟩
    exact disjoint here (reworks.origin ref there (all.hasRef here))
  origin ref member stored := by
    rw [List.flatMap_append, List.mem_append] at member
    exact List.mem_append.2 (member.imp_right (reworks.origin ref · stored))

/-- What is made of the terms touches nothing outside the scope of these. -/
theorem trans (first : Reworks scope before middle middles)
    (second : Reworks (middles.flatMap refs) middle after outputs) :
    Reworks scope before after outputs where
  frame := first.frame.trans second.frame first.origin first.origin
  stands := second.stands
  origin ref member stored :=
    first.origin ref (second.origin ref member (stored.of_frame first.frame)) stored

/-- What is outside the scope has the same kind. -/
theorem kind_eq (reworks : Reworks scope before after outputs) {ref : Ref}
    (hasRef : before.HasRef ref) (outside : ref ∉ scope) : after.kind ref = before.kind ref :=
    reworks.frame.kind_eq hasRef outside

/-- What is made next is made of some of the terms, and the others are left alone. -/
theorem next (reworks : Reworks scope before middle (middles ++ others))
    (builds : Builds middles middle after outputs) :
    Reworks scope before after (outputs ++ others) where
  frame := by
    refine reworks.frame.trans builds.frame (fun _ => by simp) fun ref member hasRef => ?_
    refine reworks.origin ref ?_ hasRef
    rw [List.flatMap_append]
    exact List.mem_append_left _ member
  stands := builds.apart reworks.stands
  origin ref member stored := by
    rw [List.flatMap_append, List.mem_append] at member
    refine reworks.origin ref ?_ stored
    rw [List.flatMap_append, List.mem_append]
    exact member.imp_left fun made => builds.origin ref made (stored.of_frame reworks.frame)

end Reworks

/-- What is built of terms in a scope touches nothing outside. -/
theorem Builds.reworks {inputs outputs : List Outline} {before after : Tree} {scope : List Ref}
    (builds : Builds inputs before after outputs) (within : inputs.flatMap refs ⊆ scope) :
    Reworks scope before after outputs where
  frame := builds.frame.mono (fun _ inside _ => absurd inside List.not_mem_nil) fun _ member _ =>
    within member
  stands := builds.stands
  origin ref member stored := within (builds.origin ref member stored)

end Tree

end Refactory
