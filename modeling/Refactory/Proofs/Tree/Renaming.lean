import Mathlib.Algebra.Order.BigOperators.Group.List
import Mathlib.Algebra.Order.Ring.Nat
import Refactory.Proofs.Tree.Types

/-!
# Putting a name in the place of parts

A fold that puts a name in the place of the nodes that pass a test gives a term in which the topmost
of these nodes are names and everything else is as it was (`Term.Renames`, `Tree.fold_renames`).
Only nodes and lists are added, so nothing is asked of what else there is in the tree, and the fold
may run over terms that share nodes.
-/
namespace Refactory

variable {α : Type} {old : Outline} {term : Outline}

namespace Term

variable {test : Ref → Bool} {name : String}

/-- The shape of a term in which a name stands in the place of the topmost parts that pass a
test. -/
def shapeNaming (test : Ref → Bool) (name : String) : Outline → Shape :=
  rework fun part form => if test part.ref then .node () (.ident name) else .node () form

theorem shapeNaming_node (place : Place) (form : Form Place) :
    shapeNaming test name (.node place form) = if test place.ref then .node () (.ident name)
      else .node () (mapChildren (shapeNaming test name) form) :=
  rework_node ..

/-- The topmost parts that pass a test. -/
def topmost (test : Ref → Bool) (outline : Outline) : List Outline :=
  (rework (fun part form =>
    node (if test part.ref then [part] else (parts form).flatMap note) form) outline).note

theorem topmost_node (place : Place) (form : Form Place) : topmost test (.node place form)
    = if test place.ref then [.node place form] else (parts form).flatMap (topmost test) := by
  rw [topmost, rework_node, note, parts_mapChildren, List.flatMap_map]
  rfl

/-- One term is another in which a name stands in the place of the topmost parts that pass a
test. -/
inductive Renames (test : Ref → Bool) (name : String) : Outline → Outline → Prop
  /-- The name stands in the place of a part that passes the test. -/
  | named {old : Outline} (place : Place) (hit : test old.ref = true) :
      Renames test name old (.node place (.ident name))
  /-- A part that does not pass the test has its children renamed, wherever it is then. -/
  | rebuilt {place place' : Place} {form form' : Form Place} (miss : test place.ref = false)
      (children : List.Forall₂ (Slot.Related (Renames test name)) form.slots form'.slots)
      (same : form.skeleton = form'.skeleton) :
      Renames test name (.node place form) (.node place' form')

/-- Where the parts that pass the test are the name itself, a term keeps its shape. -/
theorem shapeNaming_eq_shape
    (same : ∀ part ∈ term.subterms, test part.ref = true → part.kind = .ident name) :
    term.shapeNaming test name = term.shape := by
  induction term using Term.induction with
  | step place form ih =>
    rw [shapeNaming_node, shape_node, mapForm_eq]
    split
    · rename_i hit
      obtain rfl : form = .ident name := same _ (self_mem_subterms _) hit
      rfl
    · rw [mapChildren_congr fun child held => ih child held fun part inside =>
        same part (mem_subterms_of_child held inside)]
      rfl

/-- Of what gets the place of a part, only the shape matters for the shape of the whole. -/
theorem shape_swap_congr {target : Ref} {new new' : Outline} (same : new'.shape = new.shape)
    (whole : Outline) :
    (swap target new' whole).shape = (swap target new whole).shape := by
  induction whole using Term.induction with
  | step place form ih =>
    rw [swap_node, swap_node]
    split
    · exact same
    · rw [shape_node, shape_node, mapForm_eq, mapForm_eq, mapChildren_mapChildren,
        mapChildren_mapChildren]
      exact congrArg _ (mapChildren_congr ih)

/-- A part that gives its place to one of the same shape leaves the shape of the whole as it is. -/
theorem shape_swap {whole part new : Outline} (once : whole.refs.Nodup)
    (within : part ∈ whole.subterms)
    (same : new.shape = part.shape) : (swap part.ref new whole).shape = whole.shape :=
  (shape_swap_congr same whole).trans (congrArg shape (swap_eq_self once within))

/-- The children of two forms correspond one by one where their child positions do. -/
theorem forall₂_parts {β : Type} {related : Term α → Term β → Prop} {form : Form α} {form' : Form β}
    (children : List.Forall₂ (Slot.Related related) form.slots form'.slots) :
    List.Forall₂ related (parts form) (parts form') := by
  rw [parts, parts]
  generalize form.slots = slots, form'.slots = slots' at children
  induction children with
  | nil => exact .nil
  | cons first _ ih =>
    rw [List.flatMap_cons, List.flatMap_cons]
    exact List.rel_append first.terms ih

/-- What is made of the children of a form depends on the skeleton of the form and on what is made
of each child. -/
theorem mapChildren_eq_of_related {β γ : Type} {related : Term α → Term β → Prop}
    {f : Term α → Term γ}
    {g : Term β → Term γ} {form : Form α} {form' : Form β}
    (children : List.Forall₂ (Slot.Related related) form.slots form'.slots)
    (same : form.skeleton = form'.skeleton)
    (agree : ∀ child ∈ parts form, ∀ child', related child child' → g child' = f child) :
    mapChildren g form' = mapChildren f form := by
  have slots : form'.slots.map (mapSlot g) = form.slots.map (mapSlot f) := by
    have within : ∀ slot ∈ form.slots, ∀ child ∈ slot.terms, ∀ child', related child child' →
        g child' = f child :=
      fun slot inside child held => agree child (mem_parts.2 ⟨slot, inside, held⟩)
    clear same agree
    generalize form.slots = slots, form'.slots = slots' at children within
    induction children with
    | nil => rfl
    | @cons slot slot' slots slots' first _ ih =>
      rw [List.map_cons, List.map_cons, ih fun other inside => within other (.tail _ inside)]
      congr 1
      have here := within slot (.head _)
      cases first with
      | absent => rfl
      | present child =>
        exact congrArg (fun term => Slot.one (some term)) (here _ (.head _) _ child)
      | many children =>
        refine congrArg Slot.many ?_
        simp only [Slot.terms] at here
        clear ih within
        induction children with
        | nil => rfl
        | cons child _ ih =>
          rw [List.map_cons, List.map_cons, here _ (.head _) _ child,
            ih fun other inside => here other (.tail _ inside)]
  have spelled {δ : Type} (h : Term δ → Term γ) (form : Form δ) :
      mapChildren h form = form.skeleton.withSlots none [] (form.slots.map (mapSlot h)) := by
    rw [Kind.withSlots_skeleton]
    cases form <;> rfl
  rw [spelled g, spelled f, slots, same]

/-- The shape of a renamed term. -/
theorem Renames.shape_eq {new : Outline} (renames : Renames test name old new) :
    new.shape = old.shapeNaming test name := by
  induction old using Term.induction generalizing new with
  | step place form ih =>
    rw [shapeNaming_node]
    cases renames with
    | named place hit =>
      rw [ref_node] at hit
      rw [if_pos hit]
      rfl
    | rebuilt miss children same =>
      rw [if_neg (Bool.eq_false_iff.1 miss), shape_node, mapForm_eq]
      exact congrArg (node ())
        (mapChildren_eq_of_related children same fun child inside _ => ih child inside)

/-- The root of the shape of a term is what the root of the term is. -/
theorem skeleton_shape (term : Term α) : term.shape.kind.skeleton = term.kind.skeleton := by
  rcases term with ⟨note, form⟩
  rw [shape_node, mapForm_eq]
  exact Kind.skeleton_withSlots ..

/-- The shape of a term has as many parts. -/
theorem length_subterms_shape
    (term : Term α) : term.shape.subterms.length = term.subterms.length := by
  induction term using Term.induction with
  | step note form ih =>
    rw [shape_node, mapForm_eq, subterms_node, subterms_node, List.length_cons, List.length_cons,
      parts_mapChildren, List.flatMap_map, List.length_flatMap, List.length_flatMap]
    exact congrArg (·.sum + 1) (List.map_congr_left ih)

/-- Putting names in the place of parts gives no more parts. -/
theorem length_shapeNaming_le (outline : Outline) :
    (outline.shapeNaming test name).subterms.length ≤ outline.subterms.length := by
  induction outline using Term.induction with
  | step place form ih =>
    rw [shapeNaming_node, subterms_node place form, List.length_cons]
    split
    · simp [subterms_node, parts]
    · rw [subterms_node, List.length_cons, parts_mapChildren, List.flatMap_map, List.length_flatMap,
        List.length_flatMap]
      exact Nat.succ_le_succ (List.sum_le_sum ih)

end Term

namespace Tree

open Term

/-- A tree has all nodes and lists of another, at their numbers, and maybe more. -/
structure Enlarges (before after : Tree) : Prop where
  /-- The nodes come first in order. -/
  nodes : before.nodes.toList <+: after.nodes.toList
  /-- So do the lists. -/
  lists : before.lists.toList <+: after.lists.toList

namespace Enlarges

variable {before middle after : Tree}

theorem refl (tree : Tree) : Enlarges tree tree := ⟨List.prefix_rfl, List.prefix_rfl⟩

theorem trans (first : Enlarges before middle) (second : Enlarges middle after) :
    Enlarges before after :=
  ⟨first.nodes.trans second.nodes, first.lists.trans second.lists⟩

theorem size (enlarges : Enlarges before after) : before.size ≤ after.size := by
  simpa [Tree.size] using enlarges.nodes.length_le

theorem getElem?_eq (enlarges : Enlarges before after) {number : Nat} {node : Node}
    (found : before.nodes[number]? = some node) : after.nodes[number]? = some node := by
  obtain ⟨more, spelled⟩ := enlarges.nodes
  have inside := (Array.getElem?_eq_some_iff.1 found).1
  rw [← Array.getElem?_toList, ← spelled, List.getElem?_append_left (by simpa using inside),
    Array.getElem?_toList, found]

theorem holds (enlarges : Enlarges before after) {slot : NodeSlot}
    {content : Slot (Option Outline) (List Outline)}
    (holds : before.Holds slot content) : after.Holds slot content := by
  cases slot <;> cases content
  · exact holds
  · exact holds
  · exact holds
  · obtain ⟨entries, inside⟩ := holds
    exact ⟨(items_of_longer enlarges.lists inside).trans entries,
      Nat.le_trans inside (by simpa using enlarges.lists.length_le)⟩

/-- A node that is shown has the same kind in a larger tree. -/
theorem kind_eq (enlarges : Enlarges before after) (shows : before.Shows term) :
    after.kind term.ref = before.kind term.ref := by
  obtain ⟨number, kind, place, found, -⟩ := shows
  simp [Tree.kind, node, place, found, enlarges.getElem?_eq found]

/-- What a tree shows a larger one shows. -/
theorem shows (enlarges : Enlarges before after)
    (shows : before.Shows term) : after.Shows term := by
  obtain ⟨number, kind, place, found, depicts⟩ := shows
  exact ⟨number, kind, place, enlarges.getElem?_eq found,
    depicts.slots.imp fun _ _ => enlarges.holds, depicts.skeleton⟩

theorem shown (enlarges : Enlarges before after) (shown : term.All before.Shows) :
    term.All after.Shows := shown.mono fun _ => enlarges.shows

end Enlarges

/-- An edit that changes no node leaves a tree that has all of them. -/
theorem Keeps.enlarges {before after : Tree}
    (keeps : Keeps before after) : Enlarges before after := by
  obtain ⟨moved, frame⟩ := keeps
  refine ⟨List.prefix_iff_getElem?.2 fun number inside => ?_, frame.lists⟩
  rw [Array.getElem?_toList, frame.nodes number (by simpa [size] using inside) List.not_mem_nil,
    ← Array.getElem?_toList]
  exact List.getElem?_eq_getElem inside

/-- A node that is added is shown with the children that its kind has. -/
theorem alloc_shows {tree : Tree} {kind : NodeKind} {form : Form Place}
    (depicts : tree.Depicts kind form)
    (shown : ∀ child ∈ parts form, child.All tree.Shows) (span : Span) :
    (alloc kind span tree).1 = some tree.size ∧ Enlarges tree (alloc kind span tree).2 ∧
      tree.size < (alloc kind span tree).2.size ∧
      (Term.node ⟨some tree.size, span⟩ form).All (alloc kind span tree).2.Shows := by
  set after := (alloc kind span tree).2 with isAfter
  have nodes : after.nodes = tree.nodes.push ⟨kind, span⟩ := by
    rw [isAfter, alloc, touch_nodes, adopt_nodes]
  have lists : after.lists = tree.lists := by rw [isAfter, alloc, touch_lists, adopt_lists]
  have enlarges : Enlarges tree after := ⟨by simp [nodes], by simp [lists]⟩
  refine ⟨rfl, enlarges, by simp [size,
    nodes], All.node_iff.2 ⟨?_, fun child held => enlarges.shown (shown child held)⟩⟩
  refine ⟨tree.size, kind, rfl, by simp [nodes, size, note], ?_⟩
  exact ⟨depicts.slots.imp fun _ _ => enlarges.holds, depicts.skeleton⟩

/-- A list that is added is held where its entries are. -/
theorem allocList_enlarges (tree : Tree)
    (entries : List Ref) : Enlarges tree (allocList entries tree).2 :=
  ⟨List.prefix_rfl, by simp [allocList]⟩

/-- A tree shows a term without a node in two places of it. -/
structure Displays (tree : Tree) (term : Outline) : Prop where
  /-- The nodes are stored. -/
  shown : term.All tree.Shows
  /-- Every node has one place. -/
  once : term.refs.Nodup

theorem Displays.length_le {tree : Tree} (displays : tree.Displays term) :
    term.subterms.length ≤ tree.size := length_le_of_shown displays.shown displays.once

theorem Displays.outline {tree : Tree} (displays : tree.Displays term) :
    tree.outline term.ref = term :=
    outlineWithin_eq displays.shown (Nat.le_succ_of_le displays.length_le)

theorem Stands.displays {tree : Tree} (stands : tree.Stands term) : tree.Displays term :=
  ⟨stands.shown, stands.once⟩

/-- In every tree that a base was enlarged to, a rule puts one name in the place of the parts of a
term that pass a test and has all others rebuilt. -/
def Rule.Names (rule : Rule) (base : Tree) (test : Ref → Bool) (name : String)
    (old : Outline) : Prop :=
  ∀ part ∈ old.subterms, ∀ count tree, base.Enlarges tree →
    rule count part.ref tree =
      if test part.ref then (.become (Build.ident name tree).1, (Build.ident name tree).2)
      else (.rebuild, tree)

/-- A visit renames a term in every tree that a base was enlarged to, and counts the names that it
puts there. -/
def RenamesBy (base : Tree) (test : Ref → Bool) (name : String) (visit : Ref → Counted Ref)
    (old : Outline) : Prop :=
  ∀ count tree, base.Enlarges tree → ∃ new after,
    visit old.ref count tree = ((new.ref, count + (old.topmost test).length), after) ∧
      Enlarges tree after ∧ new.All after.Shows ∧ Renames test name old new

section

variable {base tree : Tree} {test : Ref → Bool} {name : String} {visit : Ref → Counted Ref}
  {rule : Rule}

/-- Terms are renamed one after the other. -/
theorem mapM_renames {terms : List Outline}
    (renames : ∀ term ∈ terms, RenamesBy base test name visit term)
    (count : Nat) (enlarged : base.Enlarges tree) : ∃ news after,
      (terms.map Term.ref).mapM visit count tree
        = ((news.map Term.ref, count + (terms.flatMap (topmost test)).length), after) ∧
      Enlarges tree after ∧ (∀ new ∈ news, new.All after.Shows) ∧
      List.Forall₂ (Renames test name) terms news := by
  induction terms generalizing count tree with
  | nil => exact ⟨[], tree, rfl, .refl tree, by simp, .nil⟩
  | cons term terms ih =>
    obtain ⟨new, middle, visited, enlarges, shown, first⟩ :=
      renames term (.head _) count tree enlarged
    obtain ⟨news, after, visitedOthers, enlargesOthers, shownOthers, others⟩ :=
      ih (fun other member => renames other (.tail _ member)) (count + (term.topmost test).length)
        (enlarged.trans enlarges)
    refine ⟨new :: news, after, ?_, enlarges.trans enlargesOthers, ?_, .cons first others⟩
    · rw [List.map_cons, counted_mapM_cons, visited, visitedOthers, List.flatMap_cons,
        List.length_append, Nat.add_assoc]
      rfl
    · exact List.forall_mem_cons.2 ⟨enlargesOthers.shown shown, shownOthers⟩

/-- A child position is renamed with what it holds. -/
theorem visitSlot_renames {slot : NodeSlot} {content : Slot (Option Outline) (List Outline)}
    (holds : base.Holds slot content)
    (renames : ∀ term ∈ content.terms, RenamesBy base test name visit term)
    (count : Nat) (enlarged : base.Enlarges tree) : ∃ slot' content' after,
      visitSlot visit slot count tree
        = ((slot', count + (content.terms.flatMap (topmost test)).length), after) ∧
      Enlarges tree after ∧ after.Holds slot' content' ∧ Slot.Alike slot slot' ∧
      (∀ new ∈ content'.terms, new.All after.Shows) ∧
      Slot.Related (Renames test name) content content' := by
  rcases slot with ref | range <;> rcases content with (_ | child) | children
  · obtain rfl : none = ref := holds.1
    exact ⟨.one none, .one none, tree, rfl, .refl tree, ⟨rfl, by simp⟩, .one, by simp, .absent⟩
  · obtain rfl : child.ref = ref := holds.1
    obtain ⟨number, place⟩ := Option.ne_none_iff_exists'.1 (holds.2 child rfl)
    obtain ⟨new, after, visited, enlarges, shown, isRenamed⟩ :=
      renames child (.head _) count tree enlarged
    refine ⟨.one new.ref, .one (some new), after, ?_, enlarges, ⟨rfl, ?_⟩,
      .one, by simpa using shown, .present isRenamed⟩
    · change child.ref = some number at place
      rw [place] at visited ⊢
      change ((Slot.one (visit (some number) count tree).1.1, (visit (some number) count tree).1.2),
        (visit (some number) count tree).2) = _
      rw [visited]
      simp
    · rintro _ ⟨rfl⟩
      exact shown.here.hasRef.ne_none
  · cases holds
  · cases holds
  · cases holds
  · obtain ⟨news, after, visited, enlarges, shown, areRenamed⟩ :=
      mapM_renames renames count enlarged
    obtain ⟨entries, inside⟩ := enlarged.holds holds
    have unfolded : visitSlot visit (.many range) count tree
        = (if ((tree.items range).mapM visit count tree).1.1 = tree.items range
            then (pure (.many range) : Counted NodeSlot)
            else do return .many (← allocList ((tree.items range).mapM visit count tree).1.1))
          ((tree.items range).mapM visit count tree).1.2
          ((tree.items range).mapM visit count tree).2 := rfl
    change (children.map Term.ref).mapM visit count tree = _ at visited
    rw [entries, visited] at unfolded
    by_cases unchanged : news.map Term.ref = children.map Term.ref
    · rw [if_pos unchanged] at unfolded
      refine ⟨.many range, .many news, after, unfolded, enlarges, ?_, .many, shown,
        .many areRenamed⟩
      obtain ⟨entries, inside⟩ := (enlarged.trans enlarges).holds holds
      exact ⟨entries.trans unchanged.symm, inside⟩
    · rw [if_neg unchanged] at unfolded
      have enlargesList := allocList_enlarges after (news.map Term.ref)
      exact ⟨_, .many news, _, unfolded, enlarges.trans enlargesList, allocList_holds news, .many,
        fun new member => enlargesList.shown (shown new member), .many areRenamed⟩

/-- Child positions are renamed one after the other. -/
theorem visitSlots_rename {slots : List NodeSlot}
    {contents : List (Slot (Option Outline) (List Outline))}
    (holds : List.Forall₂ base.Holds slots contents)
    (renames : ∀ content ∈ contents, ∀ term ∈ content.terms, RenamesBy base test name visit term)
    (count : Nat) (enlarged : base.Enlarges tree) : ∃ slots' contents' after,
      slots.mapM (visitSlot visit) count tree
        = ((slots', count + ((contents.flatMap Slot.terms).flatMap (topmost test)).length), after) ∧
      Enlarges tree after ∧ List.Forall₂ after.Holds slots' contents' ∧
      List.Forall₂ Slot.Alike slots slots' ∧
      (∀ new ∈ contents'.flatMap Slot.terms, new.All after.Shows) ∧
      List.Forall₂ (Slot.Related (Renames test name)) contents contents' := by
  induction holds generalizing count tree with
  | nil => exact ⟨[], [], tree, rfl, .refl tree, .nil, .nil, by simp, .nil⟩
  | @cons slot content slots contents first _ ih =>
    obtain ⟨slot', content', middle, visited, enlarges, held, alike, shown, isRenamed⟩ :=
      visitSlot_renames first (renames content (.head _)) count enlarged
    obtain ⟨slots', contents', after, visitedOthers, enlargesOthers, heldOthers, alikeOthers,
      shownOthers, areRenamed⟩ := ih (fun other member => renames other (.tail _ member))
        (count + (content.terms.flatMap (topmost test)).length) (enlarged.trans enlarges)
    refine ⟨slot' :: slots', content' :: contents', after, ?_, enlarges.trans enlargesOthers,
      .cons (enlargesOthers.holds held) heldOthers, .cons alike alikeOthers, ?_,
      .cons isRenamed areRenamed⟩
    · rw [counted_mapM_cons, visited, visitedOthers, List.flatMap_cons, List.flatMap_append,
        List.length_append, Nat.add_assoc]
    · rw [List.flatMap_cons]
      exact List.forall_mem_append.2
        ⟨fun new member => enlargesOthers.shown (shown new member), shownOthers⟩

/-- A fold down to a depth that suffices renames a term. -/
theorem foldWithin_renames (names : rule.Names base test name old) (shown : old.All base.Shows)
    {bound : Nat} (enough : old.subterms.length ≤ bound) :
    RenamesBy base test name (foldWithin rule bound) old := by
  induction bound generalizing old with
  | zero =>
    rw [subterms_eq] at enough
    exact absurd enough (by simp)
  | succ bound ih =>
    rcases old with ⟨place, form⟩
    intro count tree enlarged
    have here := names _ (self_mem_subterms _) count tree enlarged
    rw [ref_node] at here
    cases hit : test place.ref with
    | true =>
      rw [if_pos hit] at here
      obtain ⟨isNew, enlarges, -, shown⟩ :=
        @alloc_shows tree (.ident name) (.ident name) ⟨.nil, rfl⟩ (by simp) .nowhere
      refine ⟨_, _, ?_, enlarges, shown, .named _ hit⟩
      rw [topmost_node, if_pos hit]
      exact foldWithin_of_become here
    | false =>
      rw [if_neg (Bool.eq_false_iff.1 hit)] at here
      have below : ∀ content ∈ form.slots, ∀ child ∈ content.terms,
          RenamesBy base test name (foldWithin rule bound) child := by
        intro content member child within
        have held : child ∈ (Term.node place form).children := mem_parts.2 ⟨content, member, within⟩
        have shorter := length_subterms_lt held
        exact ih (fun part inside => names part (mem_subterms_of_child held inside))
          (shown.child held) (by omega)
      obtain ⟨slots, contents, middle, visited, enlarges, held, alike, shownBelow, areRenamed⟩ :=
        visitSlots_rename shown.here.depicts.slots below count enlarged
      have shows := (enlarged.shown shown).here
      have kind : tree.kind place.ref = base.kind place.ref := enlarged.kind_eq shown.here
      have span : tree.span place.ref = place.span := shows.span
      have folded := @foldWithin_of_rebuild _ bound _ _ _ _ here
      change (base.kind place.ref).slots.mapM (visitSlot (foldWithin rule bound)) count tree
        = _ at visited
      rw [rebuild_eq, kind, visited, span] at folded
      set form' := form.withSlots none [] contents
      have slotsForm : form'.slots = contents := Kind.slots_withSlots _
        (areRenamed.imp fun _ _ related => by cases related <;> constructor)
      have skeleton : form.skeleton = form'.skeleton := (Kind.skeleton_withSlots _ _ _ _).symm
      have counted : (contents.flatMap Slot.terms) = parts form' := by rw [parts, slotsForm]
      have renamed
          (ref : Ref) : Renames test name (.node place form) (.node ⟨ref, place.span⟩ form') :=
        .rebuilt hit (slotsForm.symm ▸ areRenamed) skeleton
      rw [counted] at shownBelow
      rw [topmost_node, if_neg (Bool.eq_false_iff.1 hit)]
      by_cases unchanged : slots = (base.kind place.ref).slots
      · replace folded := folded.trans (congrFun (congrFun (if_pos unchanged) _) _)
        refine ⟨.node place form', middle, folded, enlarges, All.node_iff.2 ⟨?_, shownBelow⟩,
          renamed place.ref⟩
        obtain ⟨number, kind, isPlace, found, depicts⟩ := shown.here
        change place.ref = some number at isPlace
        have isKind : base.kind place.ref = kind := by simp [Tree.kind, node, isPlace, found]
        refine ⟨number, kind, isPlace, (enlarged.trans enlarges).getElem?_eq found, ?_, ?_⟩
        · exact slotsForm.symm ▸ (isKind ▸ unchanged) ▸ held
        · exact depicts.skeleton.trans skeleton
      · replace folded := folded.trans (congrFun (congrFun (if_neg unchanged) _) _)
        set kind := (base.kind place.ref).withSlots none .empty slots
        have slotsKind : kind.slots = slots := Kind.slots_withSlots _ alike
        have depicts : middle.Depicts kind form' := by
          refine ⟨by rwa [slotsKind, slotsForm], ?_⟩
          rw [Kind.skeleton_withSlots, Kind.skeleton_withSlots]
          exact shown.here.depicts.skeleton
        obtain ⟨-, adds, -, shownNew⟩ := alloc_shows depicts shownBelow place.span
        exact ⟨.node ⟨some middle.size, place.span⟩ form', _, folded, enlarges.trans adds, shownNew,
          renamed _⟩

/-- A fold renames a term that is stored in a smaller tree. -/
theorem fold_renames (names : rule.Names base test name old) (displays : base.Displays old)
    (enlarged : base.Enlarges tree) : ∃ new after,
      fold rule old.ref tree = ((new.ref, (old.topmost test).length), after) ∧ Enlarges tree after ∧
        new.All after.Shows ∧ Renames test name old new := by
  have enough : old.subterms.length ≤ tree.depthBound :=
    Nat.le_succ_of_le (Nat.le_trans displays.length_le enlarged.size)
  obtain ⟨new, after, folded, others⟩ :=
    foldWithin_renames names displays.shown enough 0 tree enlarged
  rw [Nat.zero_add] at folded
  exact ⟨new, after, folded, others⟩

end

end Tree

end Refactory
