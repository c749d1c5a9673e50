import Refactory.Code.Effect
import Refactory.Proofs.Tree.Reading
import Refactory.Proofs.Tree.Swap

/-!
# The order of evaluation

Evaluation goes through a term from below and from left to right (`Term.evaluation`). What is
evaluated before all effects of a term leads it (`Term.Leads`): the effects of the term are its own
ones and then the others, and another part in its place has its own effects there instead
(`Term.Leads.effects_swap`).
-/
namespace Refactory

/-- Evaluating a call, an assignment, an increment or a decrement may have an observable effect. -/
def Kind.isEffect {one many : Type} : Kind one many → Bool
  | .invoke _ _ | .assign _ _ _ => true
  | .unary op _ => op.writesOperand
  | _ => false

/-- The member that is accessed, and whether it is skipped on null. -/
def Kind.access? {one many : Type} : Kind one many → Option (String × Bool)
  | .member _ name conditional => some (name, conditional)
  | _ => none

theorem Kind.isEffect_skeleton {one many : Type}
    (kind : Kind one many) : kind.skeleton.isEffect = kind.isEffect := by
  cases kind <;> rfl

theorem Kind.access?_skeleton {one many : Type}
    (kind : Kind one many) : kind.skeleton.access? = kind.access? := by
  cases kind <;> rfl

theorem Tree.isEffect_eq (tree : Tree)
    (ref : Ref) : tree.isEffect ref = (tree.kind ref).isEffect := by
  rw [Tree.isEffect]
  cases tree.kind ref <;> rfl

namespace Term

/-- The notes of a term in the order of evaluation, each with what is there apart from the
children. -/
def evaluation {α : Type} : Term α → List (α × Kind Unit Unit)
  | .node note form =>
    ((parts form).attach.flatMap fun ⟨child, _⟩ => evaluation child) ++ [(note, form.skeleton)]
termination_by term => sizeOf term
decreasing_by exact sizeOf_lt_of_mem_parts ‹_›

/-- The children are evaluated in order, and then the node. -/
theorem evaluation_node {α : Type} (note : α) (form : Form α) :
    evaluation (.node note form) = (parts form).flatMap evaluation ++ [(note, form.skeleton)] := by
  have unattached : (parts form).flatMap evaluation
      = (parts form).attach.flatMap fun child => evaluation child.1 := by
    conv => lhs; rw [← List.attach_map_subtype_val (parts form), List.flatMap_map]
  rw [evaluation, unattached]

/-- The effects of a term in the order of evaluation. -/
def effects (term : Outline) : List Ref := ((evaluation term).filter (·.2.isEffect)).map (·.1.ref)

/-- The member accesses of a term, each with the member and whether it is skipped on null. -/
def accesses (term : Outline) : List (Ref × String × Bool) :=
  (evaluation term).filterMap fun step => step.2.access?.map (step.1.ref, ·)

section

variable {term part new : Outline} {place : Place} {form : Form Place}

theorem effects_node (place : Place) (form : Form Place) : effects (.node place form)
    = (parts form).flatMap effects ++ if form.isEffect then [place.ref] else [] := by
  rw [effects, evaluation_node, List.filter_append, List.map_append, List.filter_flatMap,
    List.map_flatMap]
  refine congrArg _ ?_
  rw [List.filter_cons, List.filter_nil, Kind.isEffect_skeleton]
  split <;> rfl

theorem accesses_node (place : Place) (form : Form Place) : accesses (.node place form)
    = (parts form).flatMap accesses ++ (form.access?.map (place.ref, ·)).toList := by
  rw [accesses, evaluation_node, List.filterMap_append, List.filterMap_flatMap]
  refine congrArg _ ?_
  rw [List.filterMap_cons, List.filterMap_nil, Kind.access?_skeleton]
  cases form.access? <;> rfl

/-- The children next to the one that holds a part do not change when the part is swapped. -/
theorem swap_split {holder target : Outline} {front back : List Outline} (new : Outline)
    (once : (refs (.node place form)).Nodup) (split : parts form = front ++ holder :: back)
    (inside : target ∈ holder.subterms) :
    swap target.ref new (.node place form) = .node place (mapChildren (swap target.ref new) form) ∧
      parts (mapChildren (swap target.ref new) form) = front ++ swap target.ref new holder ::
      back := by
  have isChild : holder ∈ parts form := by simp [split]
  have inHolder : target.ref ∈ holder.refs := mem_refs.2 ⟨target, inside, rfl⟩
  rw [refs_node, split] at once
  obtain ⟨outside, once⟩ := List.nodup_cons.1 once
  have apart (other : Outline) (member : other ∈ front ++ back) : target.ref ∉ other.refs := by
    intro shared
    rw [List.flatMap_append, List.flatMap_cons, List.nodup_append'] at once
    obtain ⟨-, onceBack, apartFront⟩ := once
    rcases List.mem_append.1 member with ahead | behind
    · exact apartFront (List.mem_flatMap.2 ⟨other, ahead, shared⟩) (List.mem_append_left _ inHolder)
    · exact (List.nodup_append'.1 onceBack).2.2 inHolder
        (List.mem_flatMap.2 ⟨other, behind, shared⟩)
  have unchanged (others : List Outline) (some : others ⊆ front ++ back) :
      others.map (swap target.ref new) = others := by
    conv => rhs; rw [← List.map_id others]
    exact List.map_congr_left fun other member => swap_of_not_mem (apart other (some member))
  have otherPlace : place.ref ≠ target.ref := fun same =>
    outside (same ▸ List.mem_flatMap.2 ⟨holder, by simp, inHolder⟩)
  refine ⟨by rw [swap_node, if_neg otherPlace], ?_⟩
  rw [parts_mapChildren, split, List.map_append, List.map_cons, unchanged front (by simp),
    unchanged back (by simp)]

/-- What is evaluated is at some part of the term. -/
theorem mem_evaluation {step : Place × Kind Unit Unit} :
    step ∈ evaluation term ↔ ∃ part ∈ term.subterms, (part.note, part.kind.skeleton) = step := by
  induction term using Term.induction with
  | step place form ih =>
    rw [evaluation_node, subterms_node, List.mem_append, List.mem_singleton]
    constructor
    · rintro (below | rfl)
      · obtain ⟨child, isChild, inside⟩ := List.mem_flatMap.1 below
        obtain ⟨part, within, same⟩ := (ih child isChild).1 inside
        exact ⟨part, .tail _ (List.mem_flatMap.2 ⟨child, isChild, within⟩), same⟩
      · exact ⟨.node place form, .head _, rfl⟩
    · rintro ⟨part, within, rfl⟩
      rcases List.mem_cons.1 within with rfl | below
      · exact .inr rfl
      · obtain ⟨child, isChild, inside⟩ := List.mem_flatMap.1 below
        exact .inl (List.mem_flatMap.2 ⟨child, isChild, (ih child isChild).2 ⟨part, inside, rfl⟩⟩)

theorem mem_effects {ref : Ref} :
    ref ∈ effects term ↔ ∃ part ∈ term.subterms, part.kind.isEffect ∧ part.ref = ref := by
  simp only [effects, List.mem_map, List.mem_filter, mem_evaluation]
  constructor
  · rintro ⟨_, ⟨⟨part, within, rfl⟩, isEffect⟩, rfl⟩
    exact ⟨part, within, Kind.isEffect_skeleton part.kind ▸ isEffect, rfl⟩
  · rintro ⟨part, within, isEffect, rfl⟩
    exact ⟨_, ⟨⟨part, within, rfl⟩, (Kind.isEffect_skeleton part.kind).trans isEffect⟩, rfl⟩

theorem mem_accesses {access : Ref × String × Bool} : access ∈ accesses term ↔
    ∃ part ∈ term.subterms, part.ref = access.1 ∧ part.kind.access? = some access.2 := by
  simp only [accesses, List.mem_filterMap, mem_evaluation]
  constructor
  · rintro ⟨_, ⟨part, within, rfl⟩, found⟩
    obtain ⟨member, isMember, rfl⟩ := Option.map_eq_some_iff.1 found
    exact ⟨part, within, rfl, Kind.access?_skeleton part.kind ▸ isMember⟩
  · rintro ⟨part, within, same, isMember⟩
    refine ⟨_, ⟨part, within, rfl⟩, Option.map_eq_some_iff.2 ⟨access.2, ?_, ?_⟩⟩
    · exact (Kind.access?_skeleton part.kind).trans isMember
    · exact Prod.ext same rfl

/-- Every part is evaluated once. -/
theorem evaluation_refs (term : Outline) : ((evaluation term).map (·.1.ref)).Perm term.refs := by
  induction term using Term.induction with
  | step place form ih =>
    rw [evaluation_node, refs_node, List.map_append, List.map_flatMap]
    exact List.perm_append_comm.trans ((List.Perm.flatMap_left _ ih).cons _)

/-- Another part is evaluated when the part was. -/
theorem evaluation_swap (once : term.refs.Nodup) (within : part ∈ term.subterms) (new : Outline) :
    ∃ before after, evaluation term = before ++ (evaluation part ++ after) ∧
      evaluation (swap part.ref new term) = before ++ (evaluation new ++ after) := by
  induction term using Term.induction with
  | step place form ih =>
    by_cases here : part = .node place form
    · subst here
      exact ⟨[], [], by simp, by rw [swap_self]; simp⟩
    · obtain ⟨front, child, back, split, inside, -⟩ := exists_child_of_subterm once within here
      have isChild : child ∈ Term.children (.node place form) := by
        simp [Term.children, Term.kind, split]
      obtain ⟨before, after, old, swapped⟩ := ih child isChild
        (once.sublist (refs_sublist (child_mem_subterms isChild))) inside
      obtain ⟨swappedHere, splits⟩ := swap_split new once split inside
      refine ⟨front.flatMap evaluation ++ before,
        after ++ (back.flatMap evaluation ++ [(place, form.skeleton)]), ?_, ?_⟩
      · simp [evaluation_node, split, old]
      · rw [swappedHere, evaluation_node, skeleton_mapChildren, splits]
        simp [swapped]

/-- Another part has its effects where the part had its own ones. -/
theorem effects_swap (once : term.refs.Nodup) (within : part ∈ term.subterms) (new : Outline) :
    ∃ before after, effects term = before ++ (effects part ++ after) ∧
      effects (swap part.ref new term) = before ++ (effects new ++ after) := by
  obtain ⟨before, after, old, swapped⟩ := evaluation_swap once within new
  refine ⟨(before.filter (·.2.isEffect)).map (·.1.ref),
    (after.filter (·.2.isEffect)).map (·.1.ref), ?_, ?_⟩
  · simp [effects, old]
  · simp [effects, swapped]

/-- Another part has its member accesses where the part had its own ones. -/
theorem accesses_swap (once : term.refs.Nodup) (within : part ∈ term.subterms) (new : Outline) :
    ∃ before after, accesses term = before ++ (accesses part ++ after) ∧
      accesses (swap part.ref new term) = before ++ (accesses new ++ after) := by
  obtain ⟨before, after, old, swapped⟩ := evaluation_swap once within new
  refine ⟨before.filterMap fun step => step.2.access?.map (step.1.ref, ·),
    after.filterMap fun step => step.2.access?.map (step.1.ref, ·), ?_, ?_⟩
  · simp [accesses, old]
  · simp [accesses, swapped]

end

/-- A part below a term is evaluated before all effects of the term but its own ones. -/
inductive Leads (part : Outline) : Outline → Prop
  /-- A child, if nothing to the left of it has an effect. -/
  | child {whole : Outline} {front back : List Outline}
      (split : whole.children = front ++ part :: back)
      (quiet : ∀ other ∈ front, effects other = []) : Leads part whole
  /-- What leads a child, if nothing to the left of that has an effect. -/
  | deeper {whole holder : Outline} {front back : List Outline} (inside : Leads part holder)
      (split : whole.children = front ++ holder :: back)
      (quiet : ∀ other ∈ front, effects other = []) :
      Leads part whole

namespace Leads

variable {part holder whole : Outline}

/-- What leads a term is below it, among the children of a part of it. -/
theorem exists_holder
    (leads : Leads part whole) : ∃ holder ∈ whole.subterms, part ∈ holder.children := by
  induction leads with
  | child split => exact ⟨_, self_mem_subterms _, by simp [split]⟩
  | deeper _ split _ ih =>
    obtain ⟨holder, within, held⟩ := ih
    exact ⟨holder, mem_subterms_of_child (by simp [split]) within, held⟩

theorem mem_subterms (leads : Leads part whole) : part ∈ whole.subterms := by
  obtain ⟨holder, within, held⟩ := leads.exists_holder
  exact subterms_child within held

/-- What leads a term is not the term itself. -/
theorem ref_ne (leads : Leads part whole) (once : whole.refs.Nodup) : part.ref ≠ whole.ref := by
  intro same
  refine ref_not_mem_innerRefs once (same ▸ ?_)
  obtain ⟨holder, within, held⟩ := leads.exists_holder
  exact innerRefs_subset within (mem_innerRefs.2 ⟨part, held, ref_mem_refs part⟩)

/-- The effects of what leads a term come first, and other effects may come in their place. -/
theorem effects_swap (leads : Leads part whole) (once : whole.refs.Nodup) :
    ∃ rest, effects whole = effects part ++ rest ∧
      ∀ new, effects (swap part.ref new whole) = effects new ++ rest := by
  have silent {others : List Outline} (quiet : ∀ other ∈ others, effects other = []) :
      others.flatMap effects = [] := List.flatMap_eq_nil_iff.2 quiet
  induction leads with
  | @child whole front back split quiet =>
    rcases whole with ⟨place, form⟩
    refine ⟨back.flatMap effects ++ if form.isEffect then [place.ref] else [], ?_, fun new => ?_⟩
    · rw [effects_node, show parts form = _ from split]
      simp [silent quiet]
    · obtain ⟨swapped, splits⟩ := swap_split new once split (self_mem_subterms part)
      rw [swapped, effects_node, splits, swap_self, ← Kind.isEffect_skeleton (mapChildren _ form),
        skeleton_mapChildren, Kind.isEffect_skeleton]
      simp [silent quiet]
  | @deeper whole holder front back inside split quiet ih =>
    rcases whole with ⟨place, form⟩
    have isChild : holder ∈ Term.children (.node place form) := by simp [split]
    obtain ⟨rest, old, swapped⟩ := ih (once.sublist (refs_sublist (child_mem_subterms isChild)))
    refine ⟨rest ++ (back.flatMap effects ++ if form.isEffect then [place.ref] else []), ?_,
      fun new => ?_⟩
    · rw [effects_node, show parts form = _ from split]
      simp [silent quiet, old]
    · obtain ⟨swappedHere, splits⟩ := swap_split new once split inside.mem_subterms
      rw [swappedHere, effects_node, splits, ← Kind.isEffect_skeleton (mapChildren _ form),
        skeleton_mapChildren, Kind.isEffect_skeleton]
      simp [silent quiet, swapped]

end Leads

end Term

namespace Tree

open Term

section

variable {tree : Tree} {whole part term : Outline}

/-- A node has an effect when the form that it shows has one. -/
theorem Shows.isEffect_ref
    (shows : tree.Shows term) : tree.isEffect term.ref = term.kind.isEffect := by
  rw [isEffect_eq, ← Kind.isEffect_skeleton (tree.kind _), shows.depicts.skeleton,
    Kind.isEffect_skeleton]

end

/-- What is below a node, down to a depth, and then the node: in each case the children in source
order before the node above them. -/
def postorderWithin (tree : Tree) : Nat → Ref → List Ref
  | 0, _ => []
  | bound + 1, ref => (tree.children ref).flatMap (postorderWithin tree bound) ++ [ref]

/-- The nodes of the tree in post-order. -/
def postorder (tree : Tree) : List Ref :=
  match tree.root with
  | none => []
  | some number => tree.postorderWithin tree.depthBound (some number)

/-- The nodes with an effect in the order of evaluation. -/
def effectOrder (tree : Tree) : List Ref := tree.postorder.filter tree.isEffect

/-- A node of the tree accesses a member, and it is told whether it is skipped on null. -/
def Accesses (tree : Tree) (ref : Ref) (name : String) (conditional : Bool) : Prop :=
  ref ∈ tree.attached ∧ ∃ receiver, tree.kind ref = .member receiver name conditional

section

variable {tree : Tree} {term : Outline}

/-- A node accesses what the form that it shows accesses. -/
theorem Shows.access?_ref
    (shows : tree.Shows term) : (tree.kind term.ref).access? = term.kind.access? := by
  rw [← Kind.access?_skeleton (tree.kind _), shows.depicts.skeleton, Kind.access?_skeleton]

/-- The nodes met in post-order from a node on are the places of the term that stands there, as it
is evaluated. -/
theorem Stands.postorderWithin (stands : tree.Stands term) {bound : Nat}
    (enough : term.subterms.length ≤ bound) :
    tree.postorderWithin bound term.ref = (evaluation term).map (·.1.ref) := by
  induction bound generalizing term with
  | zero =>
    rw [subterms_eq] at enough
    exact absurd enough (by simp)
  | succ bound ih =>
    rcases term with ⟨place, form⟩
    have below : ∀ child ∈ parts form, tree.postorderWithin bound child.ref
        = (evaluation child).map (·.1.ref) := by
      intro child member
      have isChild : child ∈ Term.children (.node place form) := member
      have shorter := length_subterms_lt isChild
      exact ih (stands.subterm (child_mem_subterms isChild)) (by omega)
    rw [Tree.postorderWithin, stands.shown.here.children, evaluation_node, List.map_append,
      List.map_flatMap, List.flatMap_map]
    exact congrArg (· ++ _) (List.flatMap_congr below)

/-- The nodes of a program in post-order are the places of its term as it is evaluated. -/
theorem IsProgram.postorder (program : tree.IsProgram term) :
    tree.postorder = (evaluation term).map (·.1.ref) := by
  obtain ⟨number, -, isRoot⟩ := program.stands.hasRef (ref_mem_refs term)
  rw [← program.stands.postorderWithin (Nat.le_succ_of_le program.stands.length_le), isRoot,
    Tree.postorder, ← program.root, isRoot]
  rfl

/-- The nodes in post-order are the same as in pre-order. -/
theorem IsProgram.postorder_perm (program : tree.IsProgram term) :
    tree.postorder.Perm tree.attached := by
  rw [program.postorder, program.attached]
  exact evaluation_refs term

/-- The effects of a program are those of its term. -/
theorem IsProgram.effectOrder (program : tree.IsProgram term) :
    tree.effectOrder = effects term := by
  rw [Tree.effectOrder, program.postorder, effects, List.filter_map]
  refine congrArg _ (List.filter_congr fun step member => ?_)
  obtain ⟨part, within, rfl⟩ := mem_evaluation.1 member
  exact (program.stands.shows within).isEffect_ref.trans (Kind.isEffect_skeleton part.kind).symm

/-- The members that a program accesses are those that its term accesses. -/
theorem IsProgram.accesses_iff (program : tree.IsProgram term) {ref : Ref} {name : String}
    {conditional : Bool} :
    tree.Accesses ref name conditional ↔ (ref, name, conditional) ∈ accesses term := by
  have here {kind : NodeKind} : (∃ receiver, kind = .member receiver name conditional)
      ↔ kind.access? = some (name, conditional) := by
    cases kind <;> simp [Kind.access?]
  rw [Tree.Accesses, program.attached, mem_refs, mem_accesses]
  constructor
  · rintro ⟨⟨part, within, rfl⟩, isMember⟩
    exact ⟨part, within, rfl, (program.stands.shows within).access?_ref ▸ here.1 isMember⟩
  · rintro ⟨part, within, rfl, isAccess⟩
    exact ⟨⟨part, within, rfl⟩, here.2 ((program.stands.shows within).access?_ref.trans isAccess)⟩

end

end Tree

end Refactory
