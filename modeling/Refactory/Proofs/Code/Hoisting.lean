import Refactory.Proofs.Model.Scopes

/-!
# Parts that are evaluated first

A part may move in front of a statement if it is evaluated once whenever the statement runs, and
before all effects (`Term.First`). Whether that is so is said by the forms on the way from the part
up to the statement (`Tree.IsProgram.isEvaluatedFirst_iff`), and no change below the part matters
(`Term.First.swap`).
-/
namespace Refactory

namespace Kind

variable {one many one' many' : Type}

/-- Accesses of members that are skipped on null. -/
def isSkipped : Kind one many → Bool
  | .member _ _ true => true
  | _ => false

theorem isSkipped_of_skeleton {kind : Kind one many} {other : Kind one' many'}
    (same : kind.skeleton = other.skeleton) : kind.isSkipped = other.isSkipped :=
  eq_of_skeleton (fun kind => kind.isSkipped) (fun kind => by
    cases kind <;> try rfl
    next receiver name conditional => cases conditional <;> rfl) same

end Kind

namespace Term

open Refactory.Tree

/-- Whether a node of a form may evaluate a child never or more than once. -/
def defers (form : Form Place) (child : Outline) : Bool :=
  match form with
  | .lambda _ _ _ | .whileLoop _ _ => true
  | .ifStmt condition _ _ => child.ref != refOf condition
  | .forLoop declaration _ _ _ _ => child.ref != refOf declaration
  | .forEach _ _ collection _ => child.ref != refOf collection
  | .binary op _ right => op.shortCircuits && refOf right == child.ref
  | .invoke callee _ => child.kind.isArgument && callee.any (·.kind.isSkipped)
  | _ => false

/-- A part below a term is evaluated once whenever the term is, and before all effects of the term
but its own ones. -/
inductive First (part : Outline) : Outline → Prop
  /-- A child that is evaluated once, if nothing to the left of it has an effect. -/
  | child {whole : Outline} {front back : List Outline}
      (split : whole.children = front ++ part :: back)
      (quiet : ∀ other ∈ front, effects other = []) (needed : defers whole.kind part = false) :
      First part whole
  /-- What comes first in such a child. -/
  | deeper {whole holder : Outline} {front back : List Outline} (inside : First part holder)
      (split : whole.children = front ++ holder :: back)
      (quiet : ∀ other ∈ front, effects other = [])
      (needed : defers whole.kind holder = false) : First part whole

/-- What a node defers does not depend on the children but for their places and their sorts. -/
theorem defers_mapChildren {f : Outline → Outline} {form : Form Place} {child : Outline}
    (isChild : child ∈ parts form) (same : ∀ other ∈ parts form, (f other).ref = other.ref ∧
      (f other).kind.skeleton = other.kind.skeleton) :
    defers (mapChildren f form) (f child) = defers form child := by
  have optional {other : Option Outline} (among : ∀ inner ∈ other, inner ∈ parts form) :
      refOf (other.map f) = refOf other := by
    cases other with
    | none => rfl
    | some inner => exact (same inner (among inner rfl)).1
  have sameChild := same child isChild
  cases form
  case ifStmt condition thenBranch elseBranch =>
    change ((f child).ref != refOf (condition.map f)) = (child.ref != refOf condition)
    rw [sameChild.1, optional fun inner isInner => by simp [parts, Option.mem_def.1 isInner]]
  case forLoop declaration initializers condition incrementors body =>
    change ((f child).ref != refOf (declaration.map f)) = (child.ref != refOf declaration)
    rw [sameChild.1, optional fun inner isInner => by simp [parts, Option.mem_def.1 isInner]]
  case forEach type name collection body =>
    change ((f child).ref != refOf (collection.map f)) = (child.ref != refOf collection)
    rw [sameChild.1, optional fun inner isInner => by simp [parts, Option.mem_def.1 isInner]]
  case binary op left right =>
    change (op.shortCircuits && refOf (right.map f) == (f child).ref)
      = (op.shortCircuits && refOf right == child.ref)
    rw [sameChild.1, optional fun inner isInner => by simp [parts, Option.mem_def.1 isInner]]
  case invoke callee arguments =>
    change ((f child).kind.isArgument && (callee.map f).any (·.kind.isSkipped)) =
      (child.kind.isArgument && callee.any (·.kind.isSkipped))
    rw [Kind.isArgument_of_skeleton sameChild.2]
    cases callee with
    | none => rfl
    | some callee =>
      have sameCallee := (same callee (by simp [parts])).2
      exact congrArg (_ && ·) (Kind.isSkipped_of_skeleton sameCallee)
  all_goals rfl

namespace First

variable {part holder whole : Outline}

theorem trans (inside : First part holder) (around : First holder whole) : First part whole := by
  induction around with
  | child split quiet needed => exact .deeper inside split quiet needed
  | deeper _ split quiet needed ih => exact .deeper ih split quiet needed

/-- What is evaluated first leads the term. -/
theorem leads (first : First part whole) : Leads part whole := by
  induction first with
  | child split quiet => exact .child split quiet
  | deeper _ split quiet _ ih => exact .deeper ih split quiet

theorem mem_subterms (first : First part whole) : part ∈ whole.subterms := first.leads.mem_subterms

/-- The whole is in another place than all that is in a part that is evaluated first. -/
theorem ref_ne {inner : Outline} (first : First part whole) (once : whole.refs.Nodup)
    (inside : inner ∈ part.subterms) :
    inner.ref ≠ whole.ref := fun same => by
  obtain ⟨holder, within, held⟩ := first.leads.exists_holder
  refine ref_not_mem_innerRefs once (same ▸ innerRefs_subset within ?_)
  exact mem_innerRefs.2 ⟨part, held, mem_refs.2 ⟨inner, inside, rfl⟩⟩

/-- What is evaluated first is so after something below it is swapped. -/
theorem swap {target new : Outline} (first : First part whole) (once : whole.refs.Nodup)
    (inside : target ∈ part.subterms) (below : target.ref ≠ part.ref) :
    First (Term.swap target.ref new part) (Term.swap target.ref new whole) := by
  -- No child is the one that is swapped, so the children keep their places and sorts.
  have kept {place : Place} {form : Form Place} {child other : Outline}
      (once : (Term.node place form).refs.Nodup)
      (isChild : child ∈ parts form) (within : target ∈ child.subterms)
      (below : target.ref ≠ child.ref)
      (isOther : other ∈ parts form) : (Term.swap target.ref new other).ref = other.ref ∧
        (Term.swap target.ref new other).kind.skeleton = other.kind.skeleton := by
    have differ : other.ref ≠ target.ref := fun same => by
      have within' : target ∈ (Term.node place form).subterms :=
        mem_subterms_of_child isChild within
      obtain rfl :=
        subterm_unique once (mem_subterms_of_child isOther (self_mem_subterms other)) within' same
      rw [refs_node, List.nodup_cons] at once
      by_cases here : other = child
      · exact below (here ▸ rfl)
      · exact disjoint_of_nodup once.2 isOther isChild here (ref_mem_refs other)
          (mem_refs.2 ⟨other, within, rfl⟩)
    exact ⟨ref_swap_of_ne differ, by rw [kind_swap_of_ne differ, skeleton_mapChildren]⟩
  induction first with
  | @child whole front back split quiet needed =>
    rcases whole with ⟨place, form⟩
    have isChild : part ∈ parts form := by rw [show parts form = _ from split]; simp
    obtain ⟨swapped, splits⟩ := swap_split new once split inside
    rw [swapped]
    exact .child splits quiet
      ((defers_mapChildren isChild fun other => kept once isChild inside below).trans needed)
  | @deeper whole holder front back first split quiet needed ih =>
    rcases whole with ⟨place, form⟩
    have isChild : holder ∈ parts form := by rw [show parts form = _ from split]; simp
    have onceHolder := once.sublist (refs_sublist
      (child_mem_subterms (show holder ∈ Term.children (.node place form) from isChild)))
    have within := subterms_trans first.mem_subterms inside
    have belowHolder := first.ref_ne onceHolder inside
    obtain ⟨swapped, splits⟩ := swap_split new once split within
    rw [swapped]
    exact .deeper (ih onceHolder) splits quiet
      ((defers_mapChildren isChild fun other => kept once isChild within belowHolder).trans needed)

end First

end Term

namespace Tree

open Term

variable {tree : Tree} {whole part term child statement : Outline}

/-- An argument is deferred by a call of a member that may be skipped. -/
theorem passesSkipped_eq (kind callee : NodeKind) : (match kind, callee with
      | .argument _ _, .member _ _ true => true
      | _, _ => false) = (kind.isArgument && callee.isSkipped) := by
  split
  · rfl
  · rename_i other
    cases kind
    case argument =>
      rcases callee with _ | _ | _ | _ | _ | _ | _ | _ | _ | _ | _ | _ | _ | _ | _ | _ | _ | _ | ⟨_,
        _, _ | _⟩ <;>
        first | rfl | exact (other _ _ _ _ rfl rfl).elim
    all_goals rfl

/-- A node defers what its form defers. -/
theorem Stands.isDeferredIn (stands : tree.Stands term) (held : child ∈ term.children) :
    tree.isDeferredIn child.ref term.ref = defers term.kind child := by
  have depicts := stands.shown.here.depicts
  have isArgument : (tree.kind child.ref).isArgument = child.kind.isArgument :=
    Kind.isArgument_of_skeleton (stands.shown.child held).here.depicts.skeleton
  have isSkipped {callee : Outline} (held : callee ∈ term.children) :
      (tree.kind callee.ref).isSkipped = callee.kind.isSkipped :=
    Kind.isSkipped_of_skeleton (stands.shown.child held).here.depicts.skeleton
  rw [Tree.isDeferredIn]
  rw [Term.children] at isSkipped
  generalize term.kind = form at depicts isSkipped
  generalize tree.kind term.ref = kind at depicts
  cases kind
  case ifStmt =>
    obtain ⟨contents, rfl, slots⟩ := depicts.exists_contents
    simp only [Kind.slots, forall₂_holds_one] at slots
    obtain ⟨condition, _, rfl, rfl, -⟩ := slots
    rfl
  case forLoop =>
    obtain ⟨declaration, initializers, condition, incrementors, body, rfl, rfl, -⟩ :=
      depicts.forLoop
    rfl
  case binary =>
    obtain ⟨left, right, rfl, -, rfl⟩ := depicts.binary
    rfl
  case forEach =>
    obtain ⟨type, collection, body, rfl, -, rfl, -⟩ := depicts.forEach
    rfl
  case invoke =>
    obtain ⟨callee, arguments, rfl, rfl, -⟩ := depicts.invoke
    refine (passesSkipped_eq _ _).trans (isArgument ▸ congrArg (_ && ·) ?_)
    cases callee with
    | none => rfl
    | some callee => exact isSkipped (by simp [parts])
  all_goals
    obtain ⟨contents, rfl, -⟩ := depicts.exists_contents
    rfl

/-- A term has effects in the tree where it has some. -/
theorem Stands.hasEffects_eq_false_iff
    (stands : tree.Stands term) : tree.hasEffects term.ref = false ↔ effects term = [] := by
  rw [hasEffects, stands.descendants, List.any_eq_false]
  constructor
  · refine fun quiet => List.eq_nil_iff_forall_not_mem.2 fun ref member => ?_
    obtain ⟨part, within, isEffect, rfl⟩ := mem_effects.1 member
    exact quiet part.ref (mem_refs.2 ⟨part, within, rfl⟩)
      ((stands.shows within).isEffect_ref.trans isEffect)
  · intro quiet ref inside isEffect
    obtain ⟨part, within, rfl⟩ := mem_refs.1 inside
    rw [(stands.shows within).isEffect_ref] at isEffect
    exact List.not_mem_nil (quiet ▸ mem_effects.2 ⟨part, within, isEffect, rfl⟩)

/-- Something before a child has an effect where something to the left of it has one. -/
theorem Stands.hasEffectsBefore_eq_false_iff (stands : tree.Stands term) {front back : List Outline}
    (split : term.children = front ++ part :: back) :
    tree.hasEffectsBefore part.ref term.ref = false ↔ ∀ other ∈ front, effects other = [] := by
  have once := stands.children.1.once
  rw [split, List.flatMap_append, List.flatMap_cons, List.nodup_append'] at once
  have others (other : Outline) (member : other ∈ front) : other.ref ≠ part.ref := fun same => by
    have inFront := List.mem_flatMap.2 ⟨other, member, ref_mem_refs other⟩
    exact once.2.2 inFront (List.mem_append_left _ (same ▸ ref_mem_refs part))
  have ahead : (term.children.map Term.ref).takeWhile (· != part.ref) = front.map Term.ref := by
    rw [split, List.map_append, List.takeWhile_append_of_pos]
    · simp
    · simpa using others
  rw [hasEffectsBefore, stands.shown.here.children, ahead, List.any_map, List.any_eq_false]
  refine forall₂_congr fun other member => ?_
  have isChild : other ∈ term.children := by simp [split, member]
  rw [← (stands.subterm (child_mem_subterms isChild)).hasEffects_eq_false_iff, Function.comp_apply,
    Bool.not_eq_true]

/-- One step on the way up from a part to the statement in which it is to be evaluated first. -/
theorem IsProgram.isEvaluatedFirst_child (program : tree.IsProgram whole)
    (within : term ∈ whole.subterms)
    {front back : List Outline} (split : term.children = front ++ part :: back) (statement : Ref) :
    tree.isEvaluatedFirst part.ref statement = true ↔
    (defers term.kind part = false ∧ ∀ other ∈ front, effects other = []) ∧
      (term.ref = statement ∨ tree.isEvaluatedFirst term.ref statement = true) := by
  have held : part ∈ term.children := by simp [split]
  have stands := program.stands.subterm within
  rw [isEvaluatedFirst, program.ancestors_child within held, isEvaluatedFirstAlong,
    isEvaluatedFirst]
  simp only [Bool.and_eq_true, Bool.or_eq_true, Bool.not_eq_true', beq_iff_eq,
    stands.isDeferredIn held, stands.hasEffectsBefore_eq_false_iff split]

/-- A part is evaluated first in the tree exactly where it is in the term. -/
theorem IsProgram.isEvaluatedFirst_iff (program : tree.IsProgram whole)
    (within : part ∈ whole.subterms) (isStatement : statement ∈ whole.subterms) :
    tree.isEvaluatedFirst part.ref statement.ref = true ↔ First part statement := by
  constructor
  · -- The part above is larger, and no part is larger than the whole.
    induction left : whole.subterms.length - part.subterms.length
      using Nat.strongRecOn generalizing part with
    | ind bound ih =>
      intro first
      rcases program.parent_cases within with ⟨-, top⟩ | ⟨holder, inside, held, -⟩
      · have above : tree.ancestors part.ref = [] := by
          rw [ancestors, depthBound, ancestorsWithin, top]
        simp [isEvaluatedFirst, above, isEvaluatedFirstAlong] at first
      · obtain ⟨front, back, split⟩ := List.append_of_mem held
        obtain ⟨⟨needed, quiet⟩, reached⟩ := (program.isEvaluatedFirst_child inside split _).1 first
        rcases reached with here | above
        · obtain rfl := subterm_unique program.stands.once inside isStatement here
          exact .child split quiet needed
        · have larger := length_subterms_lt held
          have inWhole := (subterms_sublist inside).length_le
          exact First.trans (.child split quiet needed) (ih _ (by omega) inside rfl above)
  · intro first
    have up {holder : Outline} (first : First part holder) (inside : holder ∈ whole.subterms)
        (reached : holder.ref = statement.ref ∨
          tree.isEvaluatedFirst holder.ref statement.ref = true) :
        tree.isEvaluatedFirst part.ref statement.ref = true := by
      induction first with
      | child split quiet needed =>
        exact (program.isEvaluatedFirst_child inside split _).2 ⟨⟨needed, quiet⟩, reached⟩
      | deeper _ split quiet needed ih =>
        refine ih (subterms_child inside (by simp [split])) (.inr ?_)
        exact (program.isEvaluatedFirst_child inside split _).2 ⟨⟨needed, quiet⟩, reached⟩
    exact up first isStatement (.inl rfl)

end Tree

end Refactory
