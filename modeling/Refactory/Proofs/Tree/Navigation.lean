import Refactory.Proofs.Tree.Rereading

/-!
# Up and down

The links of a tree lead up and the slots of its nodes lead down, and the two are kept apart. In a
well-formed tree they agree: a node is below another exactly when the way up from it passes the
other, every way up ends at the root, and a walk down meets no node twice
(`Tree.WellFormed.navigation`). No walk is cut short by the bound on its steps.
-/
namespace Refactory

open Term

/-- What holds of a term, and passes from each part to the children of the part, holds of all
parts. -/
theorem Term.forall_subterms {α : Type} {whole : Term α} {motive : Term α → Prop}
    (root : motive whole)
    (step : ∀ part ∈ whole.subterms, motive part → ∀ child ∈ part.children, motive child) :
    ∀ part ∈ whole.subterms, motive part := by
  induction whole using Term.induction with
  | step note form ih =>
    intro part inside
    rw [subterms_node] at inside
    rcases List.mem_cons.1 inside with rfl | inside
    · exact root
    · obtain ⟨child, held, inside⟩ := List.mem_flatMap.1 inside
      have isChild : child ∈ (Term.node note form).children := held
      refine ih child held (step _ (self_mem_subterms _) root child isChild)
        (fun part below => ?_) part inside
      exact step part (subterms_trans (child_mem_subterms isChild) below)

namespace Tree

variable {tree : Tree} {whole part child outer : Outline} {ref : Ref}

namespace IsProgram

/-- On the way up from a part there are no more steps to make than the program has parts beyond
those in the part. -/
theorem ancestorsWithin_succ (program : tree.IsProgram whole) {bound : Nat}
    (within : part ∈ whole.subterms)
    (enough : whole.subterms.length ≤ bound + part.subterms.length) :
    tree.ancestorsWithin (bound + 1) part.ref = tree.ancestorsWithin bound part.ref := by
  induction bound generalizing part with
  | zero =>
    rw [ancestorsWithin, ancestorsWithin]
    rcases program.parent_cases within with ⟨-, absent⟩ | ⟨holder, inside, held, -⟩
    · rw [absent]
    · have shorter := length_subterms_lt held
      have inWhole := (subterms_sublist inside).length_le
      omega
  | succ bound ih =>
    rw [ancestorsWithin, ancestorsWithin]
    rcases program.parent_cases within with ⟨-, absent⟩ | ⟨holder, inside, held, isHolder⟩
    · rw [absent]
    · obtain ⟨number, -, place⟩ := program.stands.hasRef (mem_refs.2 ⟨holder, inside, rfl⟩)
      have shorter := length_subterms_lt held
      rw [isHolder, place]
      exact congrArg (some number :: ·) (place ▸ ih inside (by omega))

/-- A way up is not cut short: with more steps it leads through the same nodes. -/
theorem ancestorsWithin_add (program : tree.IsProgram whole) (within : part ∈ whole.subterms)
    (more : Nat) :
    tree.ancestorsWithin (tree.depthBound + more) part.ref = tree.ancestors part.ref := by
  have enough : whole.subterms.length ≤ tree.depthBound :=
    Nat.le_succ_of_le program.stands.length_le
  induction more with
  | zero => rfl
  | succ more ih =>
    rw [← Nat.add_assoc, program.ancestorsWithin_succ within (by omega)]
    exact ih

/-- The way up from a child leads through the node above it. -/
theorem ancestors_child (program : tree.IsProgram whole) (within : part ∈ whole.subterms)
    (held : child ∈ part.children) :
    tree.ancestors child.ref = part.ref :: tree.ancestors part.ref := by
  obtain ⟨number, -, place⟩ := program.stands.hasRef (mem_refs.2 ⟨part, within, rfl⟩)
  have enough : whole.subterms.length ≤ tree.size + part.subterms.length :=
    Nat.le_add_right_of_le program.stands.length_le
  rw [ancestors, ancestors, depthBound, program.ancestorsWithin_succ within enough, ancestorsWithin,
    program.stands.parent within held, place]

/-- Nothing is above the root. -/
theorem ancestors_root (program : tree.IsProgram whole) : tree.ancestors whole.ref = [] := by
  rw [ancestors, depthBound, ancestorsWithin, program.root, program.top]

/-- The way up from a part leads through all terms around it. -/
theorem mem_lineage (program : tree.IsProgram whole) (within : outer ∈ whole.subterms)
    (inside : part ∈ outer.subterms) :
    outer.ref ∈ tree.lineage part.ref := by
  refine forall_subterms (motive := fun part => outer.ref ∈ tree.lineage part.ref)
    (.head _) ?_ part inside
  intro holder below through child held
  rw [lineage, program.ancestors_child (subterms_trans within below) held]
  exact .tail _ through

/-- The way up from a part leads through terms around it only. -/
theorem exists_of_mem_lineage (program : tree.IsProgram whole) (within : part ∈ whole.subterms)
    (member : ref ∈ tree.lineage part.ref) :
    ∃ outer ∈ whole.subterms, outer.ref = ref ∧ part ∈ outer.subterms := by
  revert ref
  refine forall_subterms (motive := fun part => ∀ {ref}, ref ∈ tree.lineage part.ref →
    ∃ outer ∈ whole.subterms, outer.ref = ref ∧ part ∈ outer.subterms) ?_ ?_ part within
  · intro ref member
    rw [lineage, program.ancestors_root, List.mem_singleton] at member
    exact ⟨whole, self_mem_subterms whole, member.symm, self_mem_subterms whole⟩
  · intro holder isHolder above child held ref member
    rw [lineage, program.ancestors_child isHolder held, List.mem_cons] at member
    rcases member with rfl | member
    · exact ⟨child, subterms_child isHolder held, rfl, self_mem_subterms child⟩
    · obtain ⟨outer, isOuter, same, inside⟩ := above member
      exact ⟨outer, isOuter, same, subterms_child inside held⟩

/-- Each node on the way up is the parent of the one before it, and the last is the root. -/
theorem lineage_climbs (program : tree.IsProgram whole) (within : part ∈ whole.subterms) :
    (tree.lineage part.ref).IsChain (fun below above => tree.parent below = above) ∧
      (tree.lineage part.ref).getLast? = some tree.root := by
  refine forall_subterms (motive := fun part => (tree.lineage part.ref).IsChain
    (fun below above => tree.parent below = above) ∧
    (tree.lineage part.ref).getLast? = some tree.root) ?_ ?_ part within
  · rw [lineage, program.ancestors_root, ← program.root]
    exact ⟨.singleton _, rfl⟩
  · intro holder isHolder climbs child held
    rw [lineage, program.ancestors_child isHolder held]
    exact ⟨.cons_cons (program.stands.parent isHolder held) climbs.1, climbs.2⟩

/-- A part is within another exactly when the other is around it. -/
theorem isWithin_iff (program : tree.IsProgram whole) (within : part ∈ whole.subterms)
    (isOuter : outer ∈ whole.subterms) :
    tree.isWithin part.ref outer.ref = true ↔ part ∈ outer.subterms := by
  have onTheWay : tree.isWithin part.ref outer.ref = true ↔ outer.ref ∈ tree.lineage part.ref := by
    rw [isWithin, lineage, Bool.or_eq_true, beq_iff_eq, List.any_beq', List.contains_iff_mem,
      List.mem_cons, eq_comm]
  rw [onTheWay]
  constructor
  · intro through
    obtain ⟨other, isOther, same, inside⟩ := program.exists_of_mem_lineage within through
    exact subterm_unique program.stands.once isOther isOuter same ▸ inside
  · exact program.mem_lineage isOuter

end IsProgram

/-- In a well-formed tree a node is within another exactly when it is listed among the descendants
of the other. The descendants of a node are listed without duplicates in the order of the recursion
through its children, whatever bound there is beyond the depth of the tree. Each node on the way up
from a node is the parent of the one before it; the way ends at the root, above which there is
nothing, whatever bound there is on its steps. -/
theorem WellFormed.navigation (wellFormed : tree.WellFormed) {ref ancestor : Ref}
    (isNode : ref ∈ tree.attached)
    (isAncestor : ancestor ∈ tree.attached) :
    (tree.isWithin ref ancestor = true ↔ ref ∈ tree.descendants ancestor)
      ∧ tree.descendants ancestor = ancestor :: (tree.children ancestor).flatMap tree.descendants
      ∧ (tree.descendants ancestor).Nodup
      ∧ (∀ more, tree.stackWalk [(tree.depthBound + more, ancestor)] = tree.descendants ancestor)
      ∧ (tree.lineage ref).IsChain (fun below above => tree.parent below = above)
      ∧ (tree.lineage ref).getLast? = some tree.root ∧ tree.parent tree.root = none
      ∧ ∀ more, tree.ancestorsWithin (tree.depthBound + more) ref = tree.ancestors ref := by
  obtain ⟨whole, program⟩ := wellFormed_iff.1 wellFormed
  rw [program.attached] at isNode isAncestor
  obtain ⟨part, within, rfl⟩ := mem_refs.1 isNode
  obtain ⟨outer, isOuter, rfl⟩ := mem_refs.1 isAncestor
  have stands := program.stands.subterm isOuter
  obtain ⟨climbs, ends⟩ := program.lineage_climbs within
  refine ⟨?below, ?recursion, ?once, ?walk, climbs, ends, program.top,
    program.ancestorsWithin_add within⟩
  case below =>
    rw [program.isWithin_iff within isOuter, stands.descendants, mem_refs]
    constructor
    · exact fun inside => ⟨part, inside, rfl⟩
    · rintro ⟨other, inside, same⟩
      exact subterm_unique program.stands.once (subterms_trans isOuter inside) within same ▸ inside
  case recursion =>
    rw [stands.descendants, stands.shown.here.children, refs_eq, innerRefs, List.flatMap_map]
    refine congrArg (outer.ref :: ·) (List.flatMap_congr fun child held => ?_)
    exact (stands.subterm (child_mem_subterms held)).descendants.symm
  case once => exact stands.descendants ▸ stands.once
  case walk =>
    intro more
    rw [stackWalk_eq, List.flatMap_singleton, stands.descendants]
    exact stands.preorder (Nat.le_add_right_of_le (Nat.le_succ_of_le stands.length_le))

/-- An argument of a call in a lambda, and the call. -/
theorem WellFormed.navigation_of_parse :
    ∃ tree ref ancestor, Tree.parse 0 "f(x => g(x), y);" = .ok tree ∧
    tree.WellFormed ∧ ref ∈ tree.attached ∧ ancestor ∈ tree.attached ∧ ref ≠ ancestor ∧
    tree.isWithin ref ancestor = true ∧ ref ∈ tree.descendants ancestor := by
  have computed : (Tree.parse 0 "f(x => g(x), y);").toOption.any (fun tree =>
      (tree.attached.contains (some 3) && tree.attached.contains (some 5) &&
        tree.isWithin (some 3) (some 5))) = true := by
    decide +kernel
  obtain ⟨tree, parsed, facts⟩ := exists_of_any computed
  obtain ⟨-, outline, -, program, -⟩ := exists_isProgram_of_parse parsed
  simp only [Bool.and_eq_true, List.contains_iff_mem] at facts
  obtain ⟨⟨isNode, isAncestor⟩, inside⟩ := facts
  have agree := (program.wellFormed.navigation isNode isAncestor).1
  exact ⟨tree, some 3, some 5, parsed, program.wellFormed, isNode,
    isAncestor, by decide, inside, agree.1 inside⟩

end Tree

end Refactory
