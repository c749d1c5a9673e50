import Refactory.Proofs.Tree.Spans

/-!
# Numbers of the nodes of a source text

Reading a source text stores no node that is not part of the tree, and the nodes have the numbers of
their places in post-order (`Tree.inPostorder_of_parse`). So whatever is at and below a node has the
numbers of a range that ends with the node, and next to each other stand ranges of which one starts
where the other ends.
-/
namespace Refactory

/-- A part of a list of consecutive numbers is one. -/
theorem eq_range'_of_append_eq {front middle back : List Ref} {size : Nat}
    (all : front ++ (middle ++ back) = (List.range size).map some) :
    middle = (List.range' front.length middle.length).map some := by
  have length := congrArg List.length all
  simp only [List.length_append, List.length_map, List.length_range] at length
  rw [← length, List.range_eq_range', ← List.range'_append_1, ← List.range'_append_1, Nat.zero_add,
    List.map_append, List.map_append] at all
  have behind := (List.append_inj all (by simp)).2
  exact (List.append_inj behind (by simp)).1

namespace Tree

open Term

/-- The nodes at and below a node are those with the numbers of a range, and the node is the last of
them. -/
structure Takes (tree : Tree) (ref : Ref) (start stop : Nat) : Prop where
  /-- The range is that of the nodes. -/
  below : ∀ other, other ∈ tree.descendants ref ↔
    ∃ number, start ≤ number ∧ number < stop ∧ other = some number
  /-- The node comes after all that is below it. -/
  last : ∃ number, ref = some number ∧ number + 1 = stop

/-- Every node of a tree is part of it and has the number of its place in post-order. -/
structure InPostorder (tree : Tree) : Prop where
  /-- The node at each place in post-order has the number of the place. -/
  order : tree.postorder = (List.range tree.size).map some
  /-- The nodes of the tree are all that are stored. -/
  reached : ∀ ref, ref ∈ tree.attached ↔ ∃ number < tree.size, ref = some number
  /-- They are as many as are stored. -/
  count : tree.attached.length = tree.size
  /-- The root is the last one. -/
  root : tree.root = some (tree.size - 1)
  /-- What is at and below a node has consecutive numbers. -/
  range : ∀ ref ∈ tree.attached, ∃ start stop, tree.Takes ref start stop
  /-- A child starts in the source text where the one before it has ended, and so do their
  numbers. -/
  siblings : ∀ ref front left right back, tree.children ref = front ++ left :: right :: back →
    ∃ start middle stop, tree.Takes left start middle ∧ tree.Takes right middle stop ∧
      (tree.span left).stop ≤ (tree.span right).start

section

variable {tree : Tree} {whole part : Outline}

/-- Only what is stored has children. -/
theorem exists_of_children_ne_nil {ref : Ref} (some : tree.children ref ≠ []) :
    ∃ number < tree.size, ref = .some number := by
  cases ref with
  | none => exact absurd rfl some
  | some number =>
    refine ⟨number, ?_, rfl⟩
    by_contra outside
    have missing : tree.nodes[number]? = none := Array.getElem?_eq_none (Nat.le_of_not_lt outside)
    exact some (by simp [children, kind, node, missing, Node.missing, kindChildren, Kind.slots])

/-- A term whose places in post-order are consecutive takes a range of numbers. -/
theorem Stands.takes (stands : tree.Stands part) {start : Nat}
    (numbered : part.postorder = (List.range' start part.postorder.length).map some) :
    tree.Takes part.ref start (start + part.postorder.length) where
  below other := by
    rw [stands.descendants, ← (evaluation_refs part).mem_iff]
    change other ∈ part.postorder ↔ _
    rw [numbered, List.mem_map]
    simp only [List.mem_range'_1, List.length_map, List.length_range', and_assoc, eq_comm]
  last := by
    rcases part with ⟨place, form⟩
    rw [postorder_node, List.length_append, List.length_singleton, List.range'_concat,
      List.map_append] at numbered
    have own := List.singleton_inj.1 (List.append_inj' numbered rfl).2
    refine ⟨start + ((parts form).flatMap Term.postorder).length, ?_, ?_⟩
    · simpa using own
    · rw [postorder_node, List.length_append]
      rfl

/-- The places of a part follow each other in the post-order of the term. -/
theorem exists_postorder_of_subterm (once : whole.refs.Nodup) (within : part ∈ whole.subterms) :
    ∃ before after, whole.postorder = before ++ (part.postorder ++ after) := by
  obtain ⟨before, after, same, -⟩ := evaluation_swap once within part
  refine ⟨before.map (·.1.ref), after.map (·.1.ref), ?_⟩
  rw [Term.postorder, same, List.map_append, List.map_append]
  rfl

/-- A program whose places in post-order are the stored nodes, and whose spans nest, has the numbers
of its post-order. -/
theorem IsProgram.inPostorder (program : tree.IsProgram whole)
    (nests : whole.All (Nests Place.span))
    (numbered : whole.postorder = (List.range tree.size).map some) : tree.InPostorder := by
  have order : tree.postorder = (List.range tree.size).map some := program.postorder.trans numbered
  have reached (ref : Ref) : ref ∈ tree.attached ↔ ∃ number < tree.size, ref = some number := by
    rw [← program.postorder_perm.mem_iff, order, List.mem_map]
    simp only [List.mem_range, eq_comm]
  constructor
  case order => exact order
  case reached => exact reached
  case count => rw [← program.postorder_perm.length_eq, order, List.length_map, List.length_range]
  case root =>
    have length := congrArg List.length numbered
    rw [List.length_map, List.length_range] at length
    have fromStart : whole.postorder = (List.range' 0 whole.postorder.length).map some := by
      rw [length, ← List.range_eq_range', numbered]
    obtain ⟨number, isLast, same⟩ := (program.stands.takes fromStart).last
    rw [← program.root, isLast, ← length]
    exact congrArg some (by omega)
  case range =>
    intro ref member
    rw [program.attached] at member
    obtain ⟨part, within, rfl⟩ := mem_refs.1 member
    obtain ⟨before, after, same⟩ := exists_postorder_of_subterm program.stands.once within
    exact ⟨_, _,
      (program.stands.subterm within).takes (eq_range'_of_append_eq (same.symm.trans numbered))⟩
  case siblings =>
    intro ref front left right back split
    obtain ⟨⟨place, form⟩, inside, rfl⟩ : ∃ holder ∈ whole.subterms, holder.ref = ref := by
      rw [← mem_refs, ← program.attached, reached]
      exact exists_of_children_ne_nil (split ▸ by simp)
    rw [(program.stands.shows inside).children] at split
    obtain ⟨ahead, rest, children, rfl, others⟩ := List.map_eq_append_iff.1 split
    obtain ⟨first, rest, rfl, rfl, next⟩ := List.map_eq_cons_iff.1 others
    obtain ⟨second, behind, rfl, rfl, rfl⟩ := List.map_eq_cons_iff.1 next
    have standsChild {child : Outline} (held : child ∈ Term.children (.node place form)) :
        tree.Stands child := program.stands.subterm (subterms_child inside held)
    have standsFirst : tree.Stands first := standsChild (by simp [children])
    have standsSecond : tree.Stands second := standsChild (by simp [children])
    obtain ⟨before, after, same⟩ := exists_postorder_of_subterm program.stands.once inside
    rw [postorder_node, show parts form = _ from children, numbered] at same
    have firstNumbers :=
      @eq_range'_of_append_eq (before ++ ahead.flatMap Term.postorder) first.postorder
        (second.postorder ++ (behind.flatMap Term.postorder ++ (place.ref :: after))) tree.size
        (by simp [same])
    have secondNumbers :=
      @eq_range'_of_append_eq (before ++ ahead.flatMap Term.postorder ++ first.postorder)
      second.postorder (behind.flatMap Term.postorder ++ (place.ref :: after)) tree.size
      (by simp [same])
    rw [List.length_append] at secondNumbers
    refine ⟨_, _, _, standsFirst.takes firstNumbers, standsSecond.takes secondNumbers, ?_⟩
    have apart := (nests.subterm inside).here.apart
    rw [children, List.pairwise_append] at apart
    rw [standsFirst.shown.here.span, standsSecond.shown.here.span]
    exact (List.pairwise_cons.1 apart.2.1).1 second (.head _)

end

/-- The nodes of a source text are numbered in post-order, and no other is stored. -/
theorem inPostorder_of_parse {clock : Nat} {source : String} {tree : Tree}
    (parsed : Tree.parse clock source = .ok tree) : tree.InPostorder := by
  obtain ⟨term, outline, -, program, -, numbered⟩ := exists_numbered_of_parse parsed
  obtain ⟨same, programSame, nests⟩ := exists_nests_of_parse parsed
  obtain rfl := program.outline_root.symm.trans programSame.outline_root
  exact program.inPostorder nests numbered

/-- What looks like the parameters of a lambda and is none leaves no node behind. -/
theorem inPostorder_parenthesized : ∃ tree, Tree.parse 0 "f((a) => a, (b) + c);" = .ok tree ∧
    tree.size = 13 ∧ tree.InPostorder := by
  have computed : (Tree.parse 0 "f((a) => a, (b) + c);").toOption.any (fun tree => tree.size == 13)
      = true := by
    decide +kernel
  obtain ⟨tree, parsed, size⟩ := exists_of_any computed
  exact ⟨tree, parsed, beq_iff_eq.1 size, inPostorder_of_parse parsed⟩

end Tree

end Refactory
