import Refactory.Proofs.Tree.Renaming

/-!
# Putting terms in the place of parts

A fold that puts other terms in the place of the nodes that pass a test gives a term in which they
stand in the place of the topmost of these nodes, and what is around them may have moved
(`Term.Puts`). Since no node is in two places, this can be said by two functions, one that tells
what stands in the place of a part and one that tells where a node has moved (`Term.replacing`,
`Term.Puts.exists_replacing`). So every node outside of what was replaced has a node that it became.
-/
namespace Refactory

namespace Term

variable {test : Ref → Bool} {put : Outline → Outline → Prop} {value value' : Outline → Outline}
  {moved moved' : Ref → Ref}

/-- One term is another in which other terms stand in the place of the topmost parts that pass a
test. -/
inductive Puts (test : Ref → Bool) (put : Outline → Outline → Prop) : Outline → Outline → Prop
  /-- Another term stands in the place of a part that passes the test. -/
  | replaced {old new : Outline} (hit : test old.ref = true) (isPut : put old new)
      (other : new.ref ≠ old.ref) :
      Puts test put old new
  /-- A part that does not pass the test has terms put into its children, and is a new node if some
  part below it passes. -/
  | rebuilt {place : Place} {form form' : Form Place} (ref : Ref) (miss : test place.ref = false)
      (children : List.Forall₂ (Slot.Related (Puts test put)) form.slots form'.slots)
      (same : form.skeleton = form'.skeleton)
      (stays : ref = place.ref ↔ (parts form).flatMap (topmost test) = []) :
      Puts test put (.node place form) (.node ⟨ref, place.span⟩ form')

/-- A part is the node that it was exactly when no part at or below it passes the test. -/
theorem Puts.ref_eq_iff {old new : Outline}
    (puts : Puts test put old new) : new.ref = old.ref ↔ old.topmost test = [] := by
  cases puts with
  | replaced hit _ other =>
    rcases old with ⟨place, form⟩
    rw [ref_node] at hit
    rw [topmost_node, if_pos hit]
    exact iff_of_false other (by simp)
  | rebuilt ref miss _ _ stays =>
    rw [topmost_node, if_neg (Bool.eq_false_iff.1 miss)]
    exact stays

/-- All terms of a list are the nodes that they were exactly when no part at or below one of them
passes the test. -/
theorem map_ref_eq_iff {olds news : List Outline} (all : List.Forall₂ (Puts test put) olds news) :
    news.map ref = olds.map ref ↔ olds.flatMap (topmost test) = [] := by
  induction all with
  | nil => simp
  | cons first _ ih =>
    rw [List.map_cons, List.map_cons, List.cons_eq_cons, List.flatMap_cons, List.append_eq_nil_iff,
      first.ref_eq_iff, ih]

/-- The term in which the topmost parts that pass a test have values in their place and all that is
around them is moved. -/
def replacing (test : Ref → Bool) (value : Outline → Outline)
    (moved : Ref → Ref) : Outline → Outline :=
  rework fun part form => if test part.ref then value part
    else .node ⟨moved part.ref, part.note.span⟩ form

theorem replacing_node (place : Place)
    (form : Form Place) : replacing test value moved (.node place form)
    = if test place.ref then value (.node place form)
      else .node ⟨moved place.ref, place.span⟩ (mapChildren (replacing test value moved) form) :=
      rework_node ..

theorem replacing_of_hit {old : Outline} (hit : test old.ref = true) (value : Outline → Outline)
    (moved : Ref → Ref) :
    old.replacing test value moved = value old := by
  rcases old with ⟨place, form⟩
  rw [ref_node] at hit
  rw [replacing_node, if_pos hit]

/-- A part that is not replaced is a node as before. -/
theorem kind_replacing {old : Outline} (miss : test old.ref = false) :
    (old.replacing test value moved).kind = mapChildren (replacing test value moved) old.kind := by
  rcases old with ⟨place, form⟩
  rw [ref_node] at miss
  rw [replacing_node, miss]
  rfl

theorem ref_replacing {old : Outline} (miss : test old.ref = false) :
    (old.replacing test value moved).ref = moved old.ref := by
  rcases old with ⟨place, form⟩
  rw [ref_node] at miss
  rw [replacing_node, miss]
  rfl

/-- Only the values of parts and the new places of nodes of a term matter. -/
theorem replacing_congr {old : Outline} (values : ∀ part ∈ old.subterms, value part = value' part)
    (places : ∀ ref ∈ old.refs, moved ref = moved' ref) :
    old.replacing test value moved = old.replacing test value' moved' := by
  induction old using Term.induction with
  | step place form ih =>
    rw [replacing_node, replacing_node, values _ (self_mem_subterms _), places place.ref (by simp)]
    rw [mapChildren_congr fun child held =>
      ih child held (fun part inside => values part (mem_subterms_of_child held inside))
      fun ref inside =>
      places ref (refs_subset (@child_mem_subterms _ (.node place form) _ held) inside)]

/-- Child positions of one make are made from others when their terms are made from those of the
others. -/
theorem slots_eq_map {related : Outline → Outline → Prop} {f : Outline → Outline}
    {slots slots' : List (Slot (Option Outline) (List Outline))}
    (children : List.Forall₂ (Slot.Related related) slots slots')
    (made : slots'.flatMap Slot.terms = (slots.flatMap Slot.terms).map f) :
    slots' = slots.map (mapSlot f) := by
  induction children with
  | nil => rfl
  | @cons slot slot' slots slots' first _ ih =>
    rw [List.flatMap_cons, List.flatMap_cons, List.map_append] at made
    have length : slot'.terms.length = (slot.terms.map f).length := by
      cases first with
      | absent => rfl
      | present => rfl
      | many children => simp [children.length_eq]
    obtain ⟨here, others⟩ := List.append_inj made length
    rw [List.map_cons, ih others]
    congr 1
    cases first with
    | absent => rfl
    | present =>
      obtain ⟨rfl, -⟩ := List.cons_eq_cons.1 here
      rfl
    | many => exact congrArg Slot.many here

/-- What stands in the place of the topmost parts that pass a test is put there. -/
def ArePut (test : Ref → Bool) (put : Outline → Outline → Prop) (value : Outline → Outline)
    (old : Outline) : Prop :=
  ∀ part ∈ old.topmost test, put part (value part)

theorem topmost_subset (test : Ref → Bool)
    (old : Outline) : ∀ part ∈ old.topmost test, part ∈ old.subterms ∧ test part.ref := by
  induction old using Term.induction with
  | step place form ih =>
    intro part inside
    rw [topmost_node] at inside
    split at inside
    · rename_i hit
      obtain rfl := List.mem_singleton.1 inside
      exact ⟨self_mem_subterms _, hit⟩
    · obtain ⟨child, held, inside⟩ := List.mem_flatMap.1 inside
      obtain ⟨within, hit⟩ := ih child held part inside
      exact ⟨mem_subterms_of_child held within, hit⟩

/-- The topmost parts that pass a test come in the order of the parts. -/
theorem topmost_sublist (test : Ref → Bool)
    (old : Outline) : (old.topmost test).Sublist old.subterms := by
  induction old using Term.induction with
  | step place form ih =>
    rw [topmost_node, subterms_node]
    split
    · exact .cons_cons _ (List.nil_sublist _)
    · refine .cons _ ?_
      have each : ∀ children ⊆ parts form,
          (children.flatMap (topmost test)).Sublist (children.flatMap subterms) := by
        intro children among
        induction children with
        | nil => exact .slnil
        | cons child children ihChildren =>
          exact (ih child (among (.head _))).append
            (ihChildren fun _ member => among (.tail _ member))
      exact each _ fun _ member => member

/-- The parts outside of the topmost parts that pass a test. -/
def remaining (test : Ref → Bool) (outline : Outline) : List Outline :=
  (rework (fun part form =>
    node (if test part.ref then [] else part :: (parts form).flatMap note) form) outline).note

theorem remaining_node (place : Place) (form : Form Place) : remaining test (.node place form)
    = if test place.ref then [] else .node place form :: (parts form).flatMap (remaining test) := by
  rw [remaining, rework_node, note, parts_mapChildren, List.flatMap_map]
  rfl

/-- A part at or above the topmost parts that pass a test is the node that it was exactly when it
has no such part. -/
def Spares (test : Ref → Bool) (value : Outline → Outline) (moved : Ref → Ref)
    (old : Outline) : Prop :=
  ∀ part, part ∈ old.remaining test ∨ part ∈ old.topmost test →
    ((part.replacing test value moved).ref = part.ref ↔ part.topmost test = [])

theorem topmost_of_hit {part : Outline}
    (hit : test part.ref = true) : part.topmost test = [part] := by
  rcases part with ⟨place, form⟩
  rw [ref_node] at hit
  rw [topmost_node, if_pos hit]

/-- The topmost parts below a part that does not pass the test are the topmost ones of its
children. -/
theorem topmost_of_child {place : Place} {form : Form Place} {child : Outline}
    (miss : test place.ref = false)
    (held : child ∈ parts form) : child.topmost test ⊆ (node place form).topmost test := by
  rw [topmost_node, if_neg (Bool.eq_false_iff.1 miss)]
  exact fun part inside => List.mem_flatMap.2 ⟨child, held, inside⟩

theorem remaining_subset (test : Ref → Bool) (old : Outline) :
    ∀ part ∈ old.remaining test, part ∈ old.subterms ∧ test part.ref = false := by
  induction old using Term.induction with
  | step place form ih =>
    intro part inside
    rw [remaining_node] at inside
    split at inside
    · cases inside
    · rename_i miss
      rcases List.mem_cons.1 inside with rfl | inside
      · exact ⟨self_mem_subterms _, Bool.eq_false_iff.2 miss⟩
      · obtain ⟨child, held, inside⟩ := List.mem_flatMap.1 inside
        obtain ⟨within, miss⟩ := ih child held part inside
        exact ⟨mem_subterms_of_child held within, miss⟩

/-- Every part remains or lies in one of the topmost parts that pass the test. -/
theorem mem_remaining_or {old part : Outline} (inside : part ∈ old.subterms) :
    part ∈ old.remaining test ∨ ∃ hit ∈ old.topmost test, part ∈ hit.subterms := by
  induction old using Term.induction with
  | step place form ih =>
    cases isHit : test place.ref with
    | true => exact .inr ⟨_, by rw [topmost_node, if_pos isHit]; exact .head _, inside⟩
    | false =>
      rw [remaining_node, if_neg (Bool.eq_false_iff.1 isHit)]
      rw [subterms_node] at inside
      rcases List.mem_cons.1 inside with rfl | inside
      · exact .inl (.head _)
      · obtain ⟨child, held, inside⟩ := List.mem_flatMap.1 inside
        refine (ih child held inside).imp
          (fun remains => .tail _ (List.mem_flatMap.2 ⟨child, held, remains⟩)) ?_
        rintro ⟨hit, topmost, within⟩
        exact ⟨hit, topmost_of_child isHit held topmost, within⟩

/-- The children of a part that remains remain, or they are among the topmost parts that pass the
test. -/
theorem mem_remaining_or_topmost {old part child : Outline} (remains : part ∈ old.remaining test)
    (held : child ∈ part.children) :
    child ∈ old.remaining test ∨ child ∈ old.topmost test := by
  induction old using Term.induction with
  | step place form ih =>
    rw [remaining_node] at remains
    split at remains
    · cases remains
    · rename_i miss
      have lift {inner : Outline} (isChild : inner ∈ parts form) : child ∈ inner.remaining test ∨
          child ∈ inner.topmost test →
          child ∈ (node place form).remaining test ∨ child ∈ (node place form).topmost test := by
        rw [remaining_node, if_neg miss]
        exact Or.imp (fun inside => .tail _ (List.mem_flatMap.2 ⟨inner, isChild, inside⟩))
          fun inside => topmost_of_child (Bool.eq_false_iff.2 miss) isChild inside
      rcases List.mem_cons.1 remains with rfl | remains
      · refine lift held ?_
        rcases child with ⟨place, form⟩
        by_cases hit : test place.ref = true
        · exact .inr (by rw [topmost_node, if_pos hit]; exact .head _)
        · exact .inl (by rw [remaining_node, if_neg hit]; exact .head _)
      · obtain ⟨inner, isChild, remains⟩ := List.mem_flatMap.1 remains
        exact lift isChild (ih inner isChild remains)

/-- No part remains that lies in one of the topmost parts that pass the test. -/
theorem not_mem_subterms_of_remaining {old part hit : Outline} (once : old.refs.Nodup)
    (remains : part ∈ old.remaining test)
    (topmost : hit ∈ old.topmost test) : part ∉ hit.subterms := by
  induction old using Term.induction with
  | step place form ih =>
    intro inside
    rw [remaining_node] at remains
    rw [topmost_node] at topmost
    split at remains
    · cases remains
    · rename_i miss
      rw [if_neg miss] at topmost
      obtain ⟨child, held, topmost⟩ := List.mem_flatMap.1 topmost
      have withinChild := subterms_trans (topmost_subset test child hit topmost).1 inside
      rw [refs_node, List.nodup_cons] at once
      rcases List.mem_cons.1 remains with rfl | remains
      · exact once.1 (List.mem_flatMap.2 ⟨child, held, mem_refs.2 ⟨_, withinChild, rfl⟩⟩)
      · obtain ⟨other, heldOther, remains⟩ := List.mem_flatMap.1 remains
        have inOther := (remaining_subset test other part remains).1
        obtain ⟨onceEach, apart⟩ := List.nodup_flatMap.1 once.2
        by_cases same : other = child
        · subst same
          exact ih other held (onceEach other held) remains topmost inside
        · have : Std.Symm (Function.onFun (@List.Disjoint Ref) Term.refs) :=
            ⟨fun _ _ disjoint _ here there => disjoint there here⟩
          have disjoint : other.refs.Disjoint child.refs := apart.forall heldOther held same
          exact disjoint (mem_refs.2 ⟨part, inOther, rfl⟩) (mem_refs.2 ⟨part, withinChild, rfl⟩)

/-- The parts of a term with other terms in it are those of the other terms and what the remaining
parts became. -/
theorem exists_of_mem_subterms_replacing {old part : Outline}
    (inside : part ∈ (old.replacing test value moved).subterms) :
    (∃ hit ∈ old.topmost test, part ∈ (value hit).subterms) ∨
      ∃ inner ∈ old.remaining test, part = inner.replacing test value moved := by
  induction old using Term.induction with
  | step place form ih =>
    cases isHit : test place.ref with
    | true =>
      rw [replacing_of_hit isHit] at inside
      exact .inl ⟨_, by rw [topmost_node, if_pos isHit]; exact .head _, inside⟩
    | false =>
      rw [replacing_node, if_neg (Bool.eq_false_iff.1 isHit), subterms_node,
        parts_mapChildren] at inside
      rw [remaining_node, if_neg (Bool.eq_false_iff.1 isHit)]
      rcases List.mem_cons.1 inside with rfl | inside
      · exact .inr ⟨_, .head _, by rw [replacing_node, if_neg (Bool.eq_false_iff.1 isHit)]⟩
      · obtain ⟨_, isChild, inside⟩ := List.mem_flatMap.1 inside
        obtain ⟨child, held, rfl⟩ := List.mem_map.1 isChild
        refine (ih child held inside).imp ?_ ?_
        · rintro ⟨hit, topmost, within⟩
          exact ⟨hit, topmost_of_child isHit held topmost, within⟩
        · rintro ⟨inner, remains, rfl⟩
          exact ⟨inner, .tail _ (List.mem_flatMap.2 ⟨child, held, remains⟩), rfl⟩

/-- What remains is there in another place. -/
theorem replacing_mem_subterms {old part : Outline}
    (there : part ∈ old.remaining test ∨ part ∈ old.topmost test) :
    part.replacing test value moved ∈ (old.replacing test value moved).subterms := by
  induction old using Term.induction with
  | step place form ih =>
    cases isHit : test place.ref with
    | true =>
      rw [remaining_node, topmost_node, if_pos isHit, if_pos isHit] at there
      rcases there with remains | topmost
      · cases remains
      · obtain rfl := List.mem_singleton.1 topmost
        exact self_mem_subterms _
    | false =>
      rw [remaining_node, topmost_node, if_neg (Bool.eq_false_iff.1 isHit),
        if_neg (Bool.eq_false_iff.1 isHit)] at there
      have below {child : Outline} (held : child ∈ parts form)
          (there : part ∈ child.remaining test ∨ part ∈ child.topmost test) :
          part.replacing test value moved ∈
            ((node place form).replacing test value moved).subterms := by
        rw [replacing_node, if_neg (Bool.eq_false_iff.1 isHit)]
        refine mem_subterms_of_child ?_ (ih child held there)
        rw [children, kind, parts_mapChildren]
        exact List.mem_map_of_mem held
      rcases there with remains | topmost
      · rcases List.mem_cons.1 remains with rfl | remains
        · exact self_mem_subterms _
        · obtain ⟨child, held, remains⟩ := List.mem_flatMap.1 remains
          exact below held (.inl remains)
      · obtain ⟨child, held, topmost⟩ := List.mem_flatMap.1 topmost
        exact below held (.inr topmost)

/-- The shape of a term in which other shapes stand in the place of the topmost parts that pass a
test. -/
def shapePutting (test : Ref → Bool) (put : Outline → Shape) : Outline → Shape :=
  rework fun part form => if test part.ref then put part else .node () form

theorem shapePutting_node {put : Outline → Shape} (place : Place) (form : Form Place) :
    shapePutting test put (.node place form) = if test place.ref then put (.node place form)
    else .node () (mapChildren (shapePutting test put) form) :=
  rework_node ..

/-- What takes the place of the only part that passes a test is in the whole. -/
theorem mem_subterms_shapePutting {put : Outline → Shape} {part whole : Outline}
    (within : part ∈ whole.subterms) (hit : test part.ref = true)
    (only : ∀ other ∈ whole.subterms, test other.ref = true → other = part) :
    put part ∈ (whole.shapePutting test put).subterms := by
  induction whole using Term.induction with
  | step place form ih =>
    rw [shapePutting_node]
    split
    · rename_i isHere
      rw [only _ (self_mem_subterms (.node place form)) isHere]
      exact self_mem_subterms _
    · rename_i notHere
      rw [subterms_node] at within
      rcases List.mem_cons.1 within with rfl | within
      · exact absurd hit notHere
      obtain ⟨child, held, below⟩ := List.mem_flatMap.1 within
      have heldNew :
          child.shapePutting test put ∈ parts (mapChildren (shapePutting test put) form) := by
        rw [parts_mapChildren]
        exact List.mem_map_of_mem held
      refine mem_subterms_of_child heldNew (ih child held below fun other inside => ?_)
      exact only other (mem_subterms_of_child held inside)

/-- Only what the test and the shapes are for the parts of a term matters. -/
theorem shapePutting_congr {test' : Ref → Bool} {put put' : Outline → Shape} {old : Outline}
    (tests : ∀ part ∈ old.subterms, test' part.ref = test part.ref)
    (puts : ∀ part ∈ old.subterms, test part.ref = true → put' part = put part) :
    old.shapePutting test' put' = old.shapePutting test put := by
  induction old using Term.induction with
  | step place form ih =>
    have here := tests _ (self_mem_subterms (.node place form))
    rw [ref_node] at here
    rw [shapePutting_node, shapePutting_node, here]
    split
    · rename_i hit
      exact puts _ (self_mem_subterms _) hit
    · exact congrArg _ (mapChildren_congr fun child held => ih child held
        (fun part inside => tests part (mem_subterms_of_child held inside))
        fun part inside => puts part (mem_subterms_of_child held inside))

/-- The shape of a term in which other terms stand in the place of the topmost parts that pass a
test. -/
theorem shape_replacing {put : Outline → Shape} {old : Outline}
    (puts : ∀ part ∈ old.topmost test, (value part).shape = put part) :
    (old.replacing test value moved).shape = old.shapePutting test put := by
  induction old using Term.induction with
  | step place form ih =>
    rw [shapePutting_node]
    cases hit : test place.ref with
    | true =>
      rw [replacing_of_hit hit, if_pos rfl]
      exact puts (.node place form) (by rw [topmost_of_hit hit]; exact .head _)
    | false =>
      rw [replacing_node, if_neg (Bool.eq_false_iff.1 hit), if_neg (by simp), shape_node,
        mapForm_eq, mapChildren_mapChildren]
      exact congrArg _ (mapChildren_congr fun child held => ih child held fun part inside =>
        puts part (topmost_of_child hit held inside))

/-- A name has the shape of a name. -/
theorem shape_of_ident {α : Type} {name : String} {term : Term α}
    (isName : term.kind = .ident name) :
    term.shape = .node () (.ident name) := by
  rcases term with ⟨note, form⟩
  obtain rfl : form = _ := isName
  rfl

/-- The shape of a term in which a name stands in the place of the topmost parts that pass a
test. -/
theorem shape_replacing_of_names {name : String} {old : Outline}
    (names : ∀ part ∈ old.topmost test, (value part).kind = .ident name) :
    (old.replacing test value moved).shape = old.shapeNaming test name :=
  shape_replacing fun part inside => shape_of_ident (names part inside)

/-- The shape of a term in which a name stands in the place of what came in the place of the topmost
parts that pass a test. -/
theorem shape_replacing_replacing {test' : Ref → Bool} {name : String} {old : Outline}
    (hits : ∀ part ∈ old.topmost test, test' (value part).ref = true)
    (misses : ∀ part ∈ old.remaining test, test' (moved part.ref) = false)
    (names : ∀ part ∈ (old.replacing test value moved).topmost test', (value' part).kind
      = .ident name) :
    ((old.replacing test value moved).replacing test' value' moved').shape =
    old.shapeNaming test name := by
  rw [shape_replacing_of_names names]
  clear names
  induction old using Term.induction with
  | step place form ih =>
    rw [shapeNaming_node]
    cases hit : test place.ref with
    | true =>
      have isHit := hits (.node place form) (by rw [topmost_of_hit hit]; exact .head _)
      rw [replacing_of_hit hit, if_pos rfl]
      generalize value (.node place form) = new at isHit
      rcases new with ⟨newPlace, newForm⟩
      rw [ref_node] at isHit
      rw [shapeNaming_node, if_pos isHit]
    | false =>
      rw [remaining_node, if_neg (Bool.eq_false_iff.1 hit)] at misses
      have miss := misses _ (.head _)
      rw [ref_node] at miss
      rw [replacing_node, if_neg (Bool.eq_false_iff.1 hit), shapeNaming_node,
        if_neg (Bool.eq_false_iff.1 miss), if_neg (by simp), mapChildren_mapChildren]
      exact congrArg _ (mapChildren_congr fun child held => ih child held
        (fun part inside => hits part (topmost_of_child hit held inside))
        fun part inside => misses part (.tail _ (List.mem_flatMap.2 ⟨child, held, inside⟩)))

/-- Only the values of parts and the new places of nodes of a term matter for which of its parts
stay. -/
theorem Spares.congr {old : Outline} (spares : Spares test value moved old)
    (values : ∀ part ∈ old.subterms, value' part = value part)
    (places : ∀ ref ∈ old.refs, moved' ref = moved ref) : Spares test value' moved' old := by
  intro part there
  have within : part ∈ old.subterms :=
    there.elim (fun remains => (remaining_subset test old part remains).1) fun topmost =>
    (topmost_subset test old part topmost).1
  rw [replacing_congr (fun inner inside => values inner (subterms_trans within inside))
    fun ref inside => places ref (refs_subset within inside)]
  exact spares part there

/-- Terms that have no node in common may be given their values and places together. -/
theorem exists_replacing_all {olds news : List Outline} (once : (olds.flatMap refs).Nodup)
    (all : List.Forall₂ (Puts test put) olds news)
    (each : ∀ old ∈ olds, ∀ new, Puts test put old new →
      ∃ value moved, new = old.replacing test value moved ∧ ArePut test put value old ∧
        Spares test value moved old) :
    ∃ value moved, news = olds.map (replacing test value moved) ∧
      ∀ old ∈ olds, ArePut test put value old ∧ Spares test value moved old := by
  induction all with
  | nil => exact ⟨id, id, rfl, by simp⟩
  | @cons old new olds news first _ ih =>
    rw [List.flatMap_cons, List.nodup_append'] at once
    obtain ⟨value, moved, rfl, arePut, spares⟩ := each old (.head _) new first
    obtain ⟨value', moved', rfl, others⟩ := ih once.2.1 fun other held => each other (.tail _ held)
    have apart {other : Outline} (held : other ∈ olds) {ref : Ref} (inside : ref ∈ other.refs) :
        ref ∉ old.refs := fun here => once.2.2 here (List.mem_flatMap.2 ⟨other, held, inside⟩)
    -- The first term has the nodes of its own, and the others have the rest.
    let values := fun part => if part.ref ∈ old.refs then value part else value' part
    let places := fun ref => if ref ∈ old.refs then moved ref else moved' ref
    have valuesFirst : ∀ part ∈ old.subterms, values part = value part :=
      fun part inside => if_pos (mem_refs.2 ⟨part, inside, rfl⟩)
    have placesFirst : ∀ ref ∈ old.refs, places ref = moved ref := fun ref inside => if_pos inside
    have valuesOther : ∀ other ∈ olds, ∀ part ∈ other.subterms, values part = value' part :=
      fun other held part inside => if_neg (apart held (mem_refs.2 ⟨part, inside, rfl⟩))
    have placesOther : ∀ other ∈ olds, ∀ ref ∈ other.refs, places ref = moved' ref :=
      fun other held ref inside => if_neg (apart held inside)
    refine ⟨values, places, ?_, List.forall_mem_cons.2 ⟨⟨fun part inside =>
      ?_, spares.congr valuesFirst placesFirst⟩, fun other held => ⟨fun part inside =>
      ?_, (others other held).2.congr (valuesOther other held) (placesOther other held)⟩⟩⟩
    · rw [List.map_cons, replacing_congr valuesFirst placesFirst]
      exact congrArg (_ :: ·) (List.map_congr_left fun other held =>
        (replacing_congr (valuesOther other held) (placesOther other held)).symm)
    · rw [valuesFirst part (topmost_subset test old part inside).1]
      exact arePut part inside
    · rw [valuesOther other held part (topmost_subset test other part inside).1]
      exact (others other held).1 part inside

/-- A term into which others are put is made by telling what stands in the place of a part and where
a node has moved. -/
theorem Puts.exists_replacing {old new : Outline} (puts : Puts test put old new)
    (once : old.refs.Nodup) :
    ∃ value moved, new = old.replacing test value moved ∧ ArePut test put value old ∧
    Spares test value moved old := by
  induction old using Term.induction generalizing new with
  | step place form ih =>
    have whole := puts.ref_eq_iff
    cases puts with
    | replaced hit isPut other =>
      have made := (replacing_of_hit hit (fun _ => new) id).symm
      rw [ref_node] at hit
      refine ⟨fun _ => new, id, made, fun part inside => ?_, fun part there => ?_⟩
      · rw [topmost_node, if_pos hit] at inside
        obtain rfl := List.mem_singleton.1 inside
        exact isPut
      · rw [remaining_node, topmost_node, if_pos hit, if_pos hit] at there
        obtain rfl := List.mem_singleton.1 (there.resolve_left List.not_mem_nil)
        rwa [← made]
    | @rebuilt _ _ form' ref miss children same =>
      rw [refs_node, List.nodup_cons] at once
      obtain ⟨value, moved, made, each⟩ := exists_replacing_all once.2 (forall₂_parts children)
        fun child held new isNew => ih child held isNew ((List.nodup_flatMap.1 once.2).1 child held)
      let places := fun other => if other = place.ref then ref else moved other
      have elsewhere : ∀ child ∈ parts form, ∀ other ∈ child.refs, places other = moved other :=
        fun child held other inside => if_neg fun (here : other = place.ref) =>
        once.1 (here ▸ List.mem_flatMap.2 ⟨child, held, inside⟩)
      have spelled : Term.node ⟨ref, place.span⟩ form'
          = (Term.node place form).replacing test value places := by
        rw [replacing_node, if_neg (Bool.eq_false_iff.1 miss)]
        have slots := slots_eq_map children made
        have here : places place.ref = ref := if_pos rfl
        rw [here, mapChildren_congr (g := replacing test value moved) fun child held =>
          replacing_congr (fun _ _ => rfl) (elsewhere child held)]
        congr 1
        rw [Kind.eq_withSlots_of_skeleton none [] same, slots]
        cases form <;> rfl
      refine ⟨value, places, spelled, fun part inside => ?_, fun part there => ?_⟩
      · rw [topmost_node, if_neg (Bool.eq_false_iff.1 miss)] at inside
        obtain ⟨child, held, inside⟩ := List.mem_flatMap.1 inside
        exact (each child held).1 part inside
      · rw [remaining_node, topmost_node, if_neg (Bool.eq_false_iff.1 miss), if_neg
          (Bool.eq_false_iff.1 miss), List.mem_cons, List.mem_flatMap, List.mem_flatMap] at there
        have below {child : Outline} (held : child ∈ parts form) : Spares test value places child :=
          (each child held).2.congr (fun _ _ => rfl) (elsewhere child held)
        rcases there with (rfl | ⟨child, held, remains⟩) | ⟨child, held, topmost⟩
        · rwa [← spelled]
        · exact below held part (.inl remains)
        · exact below held part (.inr topmost)

end Term

end Refactory
