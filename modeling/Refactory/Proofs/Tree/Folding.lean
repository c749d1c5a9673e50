import Refactory.Tree.Fold
import Refactory.Proofs.Tree.Copying

/-!
# Folding a term

A fold with a rule that puts terms into the places of some nodes builds a term in which these terms
stand in the places of the topmost of these nodes, and everything above is made anew
(`Tree.fold_builds`). What the rule puts there it takes from a supply, so one term can be put into
one place only.
-/
namespace Refactory

/-- The terms of related positions are related one by one. -/
theorem Slot.Related.terms {α β : Type} {related : Term α → Term β → Prop}
    {slot : Slot (Option (Term α)) (List (Term α))}
    {slot' : Slot (Option (Term β)) (List (Term β))} (isRelated : Slot.Related related slot slot') :
    List.Forall₂ related slot.terms slot'.terms := by
  cases isRelated with
  | absent => exact .nil
  | present child => exact .cons child .nil
  | many children => exact children

namespace Tree

open Term

/-- A node stays where it is with the children that it had, or it is another one with some child in
another place. -/
def StaysOrMoves (old : Outline) (ref : Ref) (form : Form Place) : Prop :=
  (ref = old.ref ∧ form = old.kind) ∨
  (ref ≠ old.ref ∧ (parts form).map Term.ref ≠ old.children.map Term.ref)

/-- A term is related to those of its kind whose children are related to its own, and that are
elsewhere only if some child is. -/
def Rebuilds (related : Outline → Outline → Prop) (old : Outline) : Prop :=
  ∀ ref form, List.Forall₂ (Slot.Related related) old.kind.slots form.slots →
    old.kind.skeleton = form.skeleton → StaysOrMoves old ref form →
    related old (.node ⟨ref, old.note.span⟩ form)

/-- What a rule does at the nodes of trees made from a base: a term from the supply that is related
to the node stands for it, or else the node may be rebuilt. -/
def Rule.Serves (rule : Rule) (base : Tree) (supply : Nat → List Outline)
    (related : Outline → Outline → Prop) : Prop :=
  ∀ old, base.Stands old → ∀ count tree, Keeps base tree → tree.Stored →
    tree.StandsAll (old :: supply count) →
    tree.parent old.ref = base.parent old.ref →
    (∃ new after, rule count old.ref tree = (.become new.ref, after) ∧
      Builds (supply count) tree after (new :: supply (count + 1)) ∧ related old new) ∨
    (rule count old.ref tree = (.rebuild, tree) ∧ Rebuilds related old)

/-- A visit makes a new term of the old one and of what it takes from the supply. Where the new term
has the place of the old one, nothing was changed. -/
def VisitsAt (supply : Nat → List Outline) (related : Outline → Outline → Prop)
    (visit : Ref → Counted Ref)
    (old : Outline) (count : Nat) (tree : Tree) : Prop :=
  ∃ new count' after, visit old.ref count tree = ((new.ref, count'), after) ∧
    Builds (old :: supply count) tree after (new :: supply count') ∧ related old new ∧
    ((new = old ∧ count' = count ∧ after = tree) ∨ new.ref ≠ old.ref)

/-- What visiting a term does in every tree made from a base. -/
def Visits (base : Tree) (supply : Nat → List Outline) (related : Outline → Outline → Prop)
    (visit : Ref → Counted Ref) (old : Outline) : Prop :=
  ∀ count tree, Keeps base tree → tree.Stored → tree.StandsAll (old :: supply count) →
    (∀ ref ∈ old.refs, tree.parent ref = base.parent ref) →
    VisitsAt supply related visit old count tree

/-- Counted visits are made one after the other. -/
theorem counted_mapM_cons {α β : Type} (visit : α → Counted β) (first : α) (others : List α)
    (count : Nat) (tree : Tree) : (first :: others).mapM visit count tree =
      ((((visit first count tree).1.1 ::
        (others.mapM visit (visit first count tree).1.2 (visit first count tree).2).1.1),
        (others.mapM visit (visit first count tree).1.2 (visit first count tree).2).1.2),
        (others.mapM visit (visit first count tree).1.2 (visit first count tree).2).2) := by
  rw [List.mapM_cons]
  rfl

section

variable {base tree : Tree} {supply : Nat → List Outline} {related : Outline → Outline → Prop}
  {visit : Ref → Counted Ref} {count : Nat}

/-- Terms are visited one after the other. -/
theorem mapM_visits {terms : List Outline}
    (visits : ∀ term ∈ terms, Visits base supply related visit term) (keeps : Keeps base tree)
    (stored : tree.Stored) (all : tree.StandsAll (terms ++ supply count))
    (links : ∀ ref ∈ terms.flatMap refs, tree.parent ref = base.parent ref) :
    ∃ news count' after, (terms.map Term.ref).mapM visit count tree =
    ((news.map Term.ref, count'), after) ∧
      Builds (terms ++ supply count) tree after (news ++ supply count') ∧
      List.Forall₂ related terms news ∧ ((news = terms ∧ count' = count ∧ after = tree) ∨
        news.map Term.ref ≠ terms.map Term.ref) := by
  induction terms generalizing tree count with
  | nil => exact ⟨[], count, tree, rfl, .refl all, .nil, .inl ⟨rfl, rfl, rfl⟩⟩
  | cons term terms ih =>
    have first : tree.StandsAll ((term :: supply count) ++ terms) :=
      all.perm (List.Perm.cons _ List.perm_append_comm)
    obtain ⟨new, middleCount, middle, visited, builds, isRelated, same⟩ :=
      visits term (.head _) count tree keeps stored (StandsAll.append_iff.1 first).1
        fun ref inside => links ref (by simp [inside])
    have both := builds.append first
    have reorder :
        (new :: supply middleCount ++ terms).Perm (terms ++ supply middleCount ++ [new]) :=
      (List.Perm.cons _ List.perm_append_comm).trans (List.perm_append_singleton _ _).symm
    have later := both.stands.perm reorder
    have linksLater : ∀ ref ∈ terms.flatMap refs, middle.parent ref = base.parent ref :=
      fun ref inside => (builds.parent_eq first inside).trans (links ref (by simp [inside]))
    obtain ⟨news, count', after, visitedOthers, buildsOthers, areRelated, sameOthers⟩ :=
      ih (fun other member => visits other (.tail _ member)) (keeps.trans builds.keeps)
        (builds.frame.stored stored) (StandsAll.append_iff.1 later).1 linksLater
    refine ⟨new :: news, count', after, ?_, ?_, .cons isRelated areRelated, ?_⟩
    · rw [List.map_cons, counted_mapM_cons, visited, visitedOthers]
      rfl
    · have all := ((both.perm reorder).next buildsOthers).perm (List.perm_append_singleton _ _)
      refine all.of_subset fun other member => ?_
      simp only [List.cons_append, List.mem_cons, List.mem_append] at member ⊢
      tauto
    · rcases same with ⟨rfl, rfl, rfl⟩ | other
      · rcases sameOthers with ⟨rfl, rfl, rfl⟩ | other
        · exact .inl ⟨rfl, rfl, rfl⟩
        · exact .inr fun same => other (List.cons.inj same).2
      · exact .inr fun same => other (List.cons.inj same).1

/-- A list that was visited stands for a list of other nodes unless nothing was changed. -/
theorem range_ne {before after : Tree} {range : Range} {others : List Ref}
    (inside : range.start + range.length ≤ before.lists.size)
    (grows : before.lists.size ≤ after.lists.size)
    (length : others.length = (before.items range).length) (differ : others ≠ before.items range) :
    (⟨after.lists.size, others.length⟩ : Range) ≠ range := by
  rintro rfl
  have none : others.length = 0 := by
    simp only [length_items inside] at length inside
    omega
  have noItems := length.symm.trans none
  rw [List.length_eq_zero_iff] at none noItems
  exact differ (none.trans noItems.symm)

/-- A child position is visited with what it holds. -/
theorem visitSlot_holds {slot : NodeSlot} {content : Slot (Option Outline) (List Outline)}
    (holds : tree.Holds slot content)
    (visits : ∀ term ∈ content.terms, Visits base supply related visit term)
    (keeps : Keeps base tree)
    (stored : tree.Stored) (all : tree.StandsAll (content.terms ++ supply count))
    (links : ∀ ref ∈ content.terms.flatMap refs, tree.parent ref = base.parent ref) :
    ∃ slot' content' count' after, visitSlot visit slot count tree = ((slot', count'), after) ∧
      after.Holds slot' content' ∧ Slot.Related related content content' ∧ Slot.Alike slot slot' ∧
      Builds (content.terms ++ supply count) tree after (content'.terms ++ supply count') ∧
      ((content' = content ∧ count' = count ∧ after = tree ∧ slot' = slot) ∨
        (slot' ≠ slot ∧ content'.terms.map Term.ref ≠ content.terms.map Term.ref)) := by
  rcases slot with ref | range <;> rcases content with (_ | child) | children
  · obtain rfl : none = ref := holds.1
    exact ⟨.one none, .one none, count, tree, rfl, holds, .absent, .one, .refl all,
      .inl ⟨rfl, rfl, rfl, rfl⟩⟩
  · obtain rfl : child.ref = ref := holds.1
    obtain ⟨number, place⟩ := Option.ne_none_iff_exists'.1 (holds.2 child rfl)
    obtain ⟨new, count', after, visited, builds, isRelated, same⟩ :=
      visits child (.head _) count tree keeps stored all fun ref inside =>
      links ref (by simp [inside])
    refine ⟨.one new.ref, .one (some new), count', after, ?_, ⟨rfl, ?_⟩, .present isRelated, .one,
      builds, ?_⟩
    · change child.ref = some number at place
      rw [place] at visited ⊢
      change ((Slot.one (visit (some number) count tree).1.1, (visit (some number) count tree).1.2),
        (visit (some number) count tree).2) = _
      rw [visited]
    · rintro _ ⟨rfl⟩
      exact (builds.stands.hasRef (List.mem_flatMap.2 ⟨new, .head _, ref_mem_refs new⟩)).ne_none
    · rcases same with ⟨rfl, rfl, rfl⟩ | other
      · exact .inl ⟨rfl, rfl, rfl, rfl⟩
      · exact .inr
          ⟨fun same => other (Slot.one.inj same), fun same => other (List.singleton_inj.1 same)⟩
  · cases holds
  · cases holds
  · cases holds
  · obtain ⟨news, count', after, visited, builds, areRelated, same⟩ :=
      mapM_visits visits keeps stored all links
    obtain ⟨entries, inside⟩ := holds
    change (children.map Term.ref).mapM visit count tree = _ at visited
    have unfolded : visitSlot visit (.many range) count tree
        = (if ((tree.items range).mapM visit count tree).1.1 = tree.items range
            then (pure (.many range) : Counted NodeSlot)
            else do return .many (← allocList ((tree.items range).mapM visit count tree).1.1))
          ((tree.items range).mapM visit count tree).1.2
          ((tree.items range).mapM visit count tree).2 := rfl
    rw [entries, visited] at unfolded
    by_cases unchanged : news.map Term.ref = children.map Term.ref
    · obtain ⟨rfl, rfl, rfl⟩ := same.resolve_right (not_not_intro unchanged)
      rw [if_pos rfl] at unfolded
      exact ⟨.many range, .many news, count', after, unfolded, ⟨entries, inside⟩, .many areRelated,
        .many, builds, .inl ⟨rfl, rfl, rfl, rfl⟩⟩
    · rw [if_neg unchanged] at unfolded
      have hasRef : ∀ ref ∈ news.map Term.ref, after.HasRef ref := fun ref member =>
        builds.stands.hasRef
          (List.flatMap_append ▸ List.mem_append_left _ (mem_flatMap_refs_of_root member))
      refine ⟨_, .many news, count', _, unfolded, allocList_holds news, .many areRelated, .many,
        builds.grow (allocList_frame hasRef), .inr ⟨fun same => ?_, unchanged⟩⟩
      have length : (news.map Term.ref).length = (tree.items range).length := by
        rw [entries, List.length_map, List.length_map]
        exact areRelated.length_eq.symm
      exact range_ne inside builds.frame.lists_size length (entries ▸ unchanged)
        (Slot.many.inj same)

/-- Child positions are visited one after the other. -/
theorem visitSlots_hold {slots : List NodeSlot}
    {contents : List (Slot (Option Outline) (List Outline))}
    (holds : List.Forall₂ tree.Holds slots contents)
    (visits : ∀ content ∈ contents, ∀ term ∈ content.terms, Visits base supply related visit term)
    (keeps : Keeps base tree) (stored : tree.Stored)
    (all : tree.StandsAll (contents.flatMap Slot.terms ++ supply count))
    (links : ∀ ref ∈ (contents.flatMap Slot.terms).flatMap refs, tree.parent ref
      = base.parent ref) :
    ∃ slots' contents' count' after, slots.mapM (visitSlot visit) count tree =
    ((slots', count'), after) ∧ List.Forall₂ after.Holds slots' contents' ∧
      List.Forall₂ (Slot.Related related) contents contents' ∧
      List.Forall₂ Slot.Alike slots slots' ∧
      Builds (contents.flatMap Slot.terms ++ supply count) tree after
        (contents'.flatMap Slot.terms ++ supply count') ∧
      ((contents' = contents ∧ count' = count ∧ after = tree ∧ slots' = slots) ∨ (slots' ≠ slots ∧
        (contents'.flatMap Slot.terms).map Term.ref
          ≠ (contents.flatMap Slot.terms).map Term.ref)) := by
  induction slots generalizing tree count contents with
  | nil =>
    cases holds
    exact ⟨[], [], count, tree, rfl, .nil, .nil, .nil, .refl all, .inl ⟨rfl, rfl, rfl, rfl⟩⟩
  | cons slot slots ih =>
    cases holds with
    | @cons _ content _ contents first others =>
      have early :
          tree.StandsAll ((content.terms ++ supply count) ++ contents.flatMap Slot.terms) := by
        refine all.perm ?_
        rw [List.flatMap_cons, List.append_assoc, List.append_assoc]
        exact List.Perm.append_left _ List.perm_append_comm
      obtain ⟨slot', content', middleCount, middle, visited, holds', isRelated,
        alike, builds, same⟩ := visitSlot_holds first (visits content (.head _)) keeps stored
          (StandsAll.append_iff.1 early).1 fun ref inside => links ref
            (by rw [List.flatMap_cons, List.flatMap_append]; exact List.mem_append_left _ inside)
      have both := builds.append early
      have reorder : (content'.terms ++ supply middleCount ++ contents.flatMap Slot.terms).Perm
          (contents.flatMap Slot.terms ++ supply middleCount ++ content'.terms) := by
        rw [List.append_assoc]
        exact List.perm_append_comm.trans (List.Perm.append_right _ List.perm_append_comm)
      have later := both.stands.perm reorder
      have linksLater : ∀ ref ∈ (contents.flatMap Slot.terms).flatMap refs,
          middle.parent ref = base.parent ref := fun ref inside =>
        (builds.parent_eq early inside).trans (links ref (by
          rw [List.flatMap_cons, List.flatMap_append]
          exact List.mem_append_right _ inside))
      obtain ⟨slots', contents', count', after, visitedOthers, holdsOthers, areRelated, alikeOthers,
          buildsOthers, sameOthers⟩ :=
        ih (others.imp fun _ _ => Holds.of_frame builds.frame)
          (fun other member => visits other (.tail _ member)) (keeps.trans builds.keeps)
          (builds.frame.stored stored) (StandsAll.append_iff.1 later).1 linksLater
      refine ⟨slot' :: slots', content' :: contents', count', after, ?_,
        .cons (holds'.of_frame buildsOthers.frame) holdsOthers, .cons isRelated areRelated,
        .cons alike alikeOthers, ?_, ?_⟩
      · rw [counted_mapM_cons, visited, visitedOthers]
      · have all := ((both.perm reorder).next buildsOthers).perm List.perm_append_comm
        rw [← List.append_assoc, ← List.flatMap_cons] at all
        refine all.of_subset fun other member => ?_
        simp only [List.flatMap_cons, List.mem_append] at member ⊢
        tauto
      · have split (same : ((content' :: contents').flatMap Slot.terms).map Term.ref
            = ((content :: contents).flatMap Slot.terms).map Term.ref) :
            content'.terms.map Term.ref = content.terms.map Term.ref ∧
              (contents'.flatMap Slot.terms).map Term.ref
              = (contents.flatMap Slot.terms).map Term.ref := by
          rw [List.flatMap_cons, List.flatMap_cons, List.map_append, List.map_append] at same
          exact List.append_inj same
            (by rw [List.length_map, List.length_map, isRelated.terms.length_eq])
        rcases same with ⟨rfl, rfl, rfl, rfl⟩ | ⟨other, moved⟩
        · rcases sameOthers with ⟨rfl, rfl, rfl, rfl⟩ | ⟨other, moved⟩
          · exact .inl ⟨rfl, rfl, rfl, rfl⟩
          · exact .inr ⟨fun same => other (List.cons.inj same).2, fun same => moved (split same).2⟩
        · exact .inr ⟨fun same => other (List.cons.inj same).1, fun same => moved (split same).1⟩

end

section

variable {base : Tree} {supply : Nat → List Outline} {related : Outline → Outline → Prop}
  {rule : Rule}

/-- An edit that reads the number of replaced nodes, with what is done after it. -/
theorem Counted.bind_of {α β : Type} {edit : Nat → Edit α} {next : α → Counted β} {count : Nat}
    {tree after : Tree} {value : α} (done : edit count tree = (value, after)) :
    (do next (← edit (← getThe Nat)) : Counted β) count tree = next value count after := by
  change next (edit count tree).1 count (edit count tree).2 = _
  rw [done]

/-- Where the rule says so, a node becomes another one. -/
theorem foldWithin_of_become {bound count : Nat} {ref replacement : Ref} {tree after : Tree}
    (become : rule count ref tree = (.become replacement, after)) :
    foldWithin rule (bound + 1) ref count tree = ((replacement, count + 1), after) := by
  rw [foldWithin]
  exact @Counted.bind_of _ _ (fun count => rule count ref) _ count tree after _ become

/-- Where the rule says so, a node is rebuilt. -/
theorem foldWithin_of_rebuild {bound count : Nat} {ref : Ref} {tree after : Tree}
    (isRebuilt : rule count ref tree = (.rebuild, after)) :
    foldWithin rule (bound + 1) ref count tree =
    rebuild (foldWithin rule bound) ref count after := by
  rw [foldWithin]
  exact @Counted.bind_of _ _ (fun count => rule count ref) _ count tree after _ isRebuilt

/-- Rebuilding a node visits its child positions. -/
theorem rebuild_eq (visit : Ref → Counted Ref) (ref : Ref) (count : Nat) (tree : Tree) :
    rebuild visit ref count tree =
      (if ((tree.kind ref).slots.mapM (visitSlot visit) count tree).1.1 = (tree.kind ref).slots
        then (pure ref : Counted Ref)
        else liftM (alloc ((tree.kind ref).withSlots none .empty
          ((tree.kind ref).slots.mapM (visitSlot visit) count tree).1.1) (tree.span ref)))
      ((tree.kind ref).slots.mapM (visitSlot visit) count tree).1.2
      ((tree.kind ref).slots.mapM (visitSlot visit) count tree).2 := rfl

section

variable {bound count : Nat} {tree : Tree}

/-- What is built of other terms is not at the place of a term that stands beside them. -/
theorem Builds.ref_ne {before after : Tree} {inputs outputs : List Outline} {old new : Outline}
    (builds : Builds inputs before after (new :: outputs))
    (all : before.StandsAll (old :: inputs)) : new.ref ≠ old.ref := by
  obtain ⟨standsOld, -, apart⟩ := StandsAll.cons_iff.1 all
  intro same
  have taken :=
    builds.origin new.ref (by simp [ref_mem_refs]) (same ▸ standsOld.hasRef (ref_mem_refs old))
  exact apart (ref_mem_refs old) (same ▸ taken)

/-- A node that becomes a term from the supply. -/
theorem visitsAt_of_become {old new : Outline} {after : Tree}
    (all : tree.StandsAll (old :: supply count))
    (become : rule count old.ref tree = (.become new.ref, after))
    (builds : Builds (supply count) tree after (new :: supply (count + 1)))
    (isRelated : related old new) :
    VisitsAt supply related (foldWithin rule (bound + 1)) old count tree := by
  refine ⟨new, count + 1, after, ?_, ?_, isRelated, .inr (builds.ref_ne all)⟩
  · exact foldWithin_of_become become
  · exact builds.of_subset fun _ member => .tail _ member

/-- A node that is rebuilt from its children. -/
theorem visitsAt_of_rebuild {place : Place} {form : Form Place}
    (isRebuilt : rule count place.ref tree = (.rebuild, tree))
    (rebuilds : Rebuilds related (.node place form))
    (below : ∀ child ∈ parts form, Visits base supply related (foldWithin rule bound) child)
    (keeps : Keeps base tree) (stored : tree.Stored)
    (all : tree.StandsAll (.node place form :: supply count))
    (links : ∀ ref ∈ Term.refs (.node place form), tree.parent ref = base.parent ref) :
    VisitsAt supply related (foldWithin rule (bound + 1)) (.node place form) count tree := by
  obtain ⟨standsOld, standing, apart⟩ := StandsAll.cons_iff.1 all
  obtain ⟨children, outside⟩ := standsOld.children
  have contents : form.slots.flatMap Slot.terms = parts form := rfl
  have inside : (parts form).flatMap refs ⊆ Term.refs (.node place form) := fun ref member =>
    refs_node place form ▸ .tail _ member
  have below : ∀ content ∈ form.slots, ∀ child ∈ content.terms,
      Visits base supply related (foldWithin rule bound) child := fun content member child within =>
    below child (mem_parts.2 ⟨content, member, within⟩)
  have allBelow : tree.StandsAll (parts form ++ supply count) :=
    StandsAll.append_iff.2 ⟨children, standing, fun ref member => apart (inside member)⟩
  have here := standsOld.shown.here
  obtain ⟨slots, contents', count', middle, visited, holds, areRelated, alike, builds, same⟩ :=
    visitSlots_hold here.depicts.slots below keeps stored allBelow fun ref member =>
    links ref (inside member)
  have folded := @foldWithin_of_rebuild _ bound _ _ _ _ isRebuilt
  change (tree.kind place.ref).slots.mapM (visitSlot (foldWithin rule bound)) count tree
    = _ at visited
  have span : tree.span place.ref = place.span := here.span
  rw [rebuild_eq, visited, span] at folded
  have wider : ((parts form ++ supply count).flatMap refs) ⊆
      (Term.node place form :: supply count).flatMap refs := by
    simp only [List.flatMap_append, List.flatMap_cons]
    exact List.append_subset.2 ⟨fun ref member => List.mem_append_left _ (inside member),
      List.subset_append_right _ _⟩
  rcases same with ⟨rfl, rfl, rfl, rfl⟩ | ⟨changed, moved⟩
  · replace folded := folded.trans (congrFun (congrFun (if_pos rfl) _) _)
    exact ⟨.node place form, count', middle, folded, .refl all,
      rebuilds place.ref form areRelated rfl (.inl ⟨rfl, rfl⟩), .inl ⟨rfl, rfl, rfl⟩⟩
  · replace folded := folded.trans (congrFun (congrFun (if_neg changed) _) _)
    set kind := (tree.kind place.ref).withSlots none .empty slots
    set form' := form.withSlots none [] contents'
    have slotsKind : kind.slots = slots := Kind.slots_withSlots _ alike
    have slotsForm : form'.slots = contents' := Kind.slots_withSlots _
      (areRelated.imp fun _ _ related => by cases related <;> constructor)
    have depicts : middle.Depicts kind form' := by
      refine ⟨by rwa [slotsKind, slotsForm], ?_⟩
      rw [Kind.skeleton_withSlots, Kind.skeleton_withSlots]
      exact here.depicts.skeleton
    have terms : contents'.flatMap Slot.terms = parts form' := by rw [parts, slotsForm]
    rw [terms] at builds
    have adds := alloc_builds (builds.frame.stored stored) depicts
      (StandsAll.append_iff.1 builds.stands).1 place.span
    have old : middle.HasRef place.ref := (standsOld.hasRef (ref_mem_refs _)).of_frame builds.frame
    have elsewhere : some middle.size ≠ place.ref := fun same => not_hasRef_size (same ▸ old)
    exact ⟨.node ⟨some middle.size, place.span⟩ form', count', (alloc kind place.span middle).2,
      folded,
      (builds.next adds).of_refs_subset wider, rebuilds _ form' (slotsForm.symm ▸ areRelated)
      (Kind.skeleton_withSlots _ _ _ _).symm (.inr ⟨elsewhere, terms ▸ moved⟩), .inr elsewhere⟩

end

/-- Folding a term down to a depth that suffices visits it. -/
theorem foldWithin_visits (serves : rule.Serves base supply related) {bound : Nat} {old : Outline}
    (enough : old.subterms.length ≤ bound) (stands : base.Stands old) :
    Visits base supply related (foldWithin rule bound) old := by
  induction bound generalizing old with
  | zero =>
    rw [subterms_eq] at enough
    exact absurd enough (by simp)
  | succ bound ih =>
    rcases old with ⟨place, form⟩
    intro count tree keeps stored all links
    rcases serves _ stands count tree keeps stored all (links place.ref (by simp)) with
      ⟨new, after, become, builds, isRelated⟩ | ⟨isRebuilt, rebuilds⟩
    · exact visitsAt_of_become all become builds isRelated
    · refine visitsAt_of_rebuild isRebuilt rebuilds (fun child member => ?_) keeps stored all links
      have shorter := @length_subterms_lt _ (.node place form) _ member
      exact ih (by omega) (stands.subterm (@child_mem_subterms _ (.node place form) _ member))

/-- A fold builds a term of a term that stands and of what the rule takes from the supply. -/
theorem fold_builds {old : Outline} (serves : rule.Serves base supply related)
    (stored : base.Stored)
    (all : base.StandsAll (old :: supply 0)) : ∃ new count after,
      fold rule old.ref base = ((new.ref, count), after) ∧
        Builds (old :: supply 0) base after (new :: supply count) ∧ related old new := by
  have stands := (StandsAll.cons_iff.1 all).1
  obtain ⟨new, count, after, folded, builds, isRelated, -⟩ :=
    foldWithin_visits serves (Nat.le_succ_of_le stands.length_le) stands 0 base (.refl base)
      stored all fun _ _ => rfl
  exact ⟨new, count, after, folded, builds, isRelated⟩

end

end Tree

end Refactory
