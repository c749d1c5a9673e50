import Refactory.Proofs.Tree.Reading

/-!
# Well-formed trees

A tree is well formed when every node that is reached from the root is reached in one way only, its
link leads to the node above it, nothing is above the root, and all references and lists lie in the
stores (`Tree.WellFormed`). These are the trees in which a term stands at the root
(`Tree.wellFormed_iff`).
-/
namespace Refactory

namespace Tree

open Term

/-- The node that is reached from a node by going down to the children at some positions. -/
def follow? (tree : Tree) : Ref → List Nat → Option Ref
  | ref, [] => some ref
  | ref, position :: path => (tree.children ref)[position]?.bind (follow? tree · path)

/-- A tree that can be taken for a program. -/
structure WellFormed (tree : Tree) : Prop where
  /-- The root is a stored node. -/
  root : tree.HasRef tree.root
  /-- Nothing is above the root. -/
  top : tree.parent tree.root = none
  /-- There is one way to every node that is reached. -/
  once : ∀ path other ref, tree.follow? tree.root path = some ref →
    tree.follow? tree.root other = some ref → path = other
  /-- The links of the children of every node that is reached lead to it. -/
  linked : ∀ path ref child, tree.follow? tree.root path = some ref →
    child ∈ tree.children ref → tree.parent child = ref
  /-- All references and lists lie in the stores. -/
  stored : tree.Stored

section

variable {tree : Tree} {term : Outline} {ref : Ref}

theorem follow?_append (path rest : List Nat) : tree.follow? ref (path ++ rest)
    = (tree.follow? ref path).bind (tree.follow? · rest) := by
  induction path generalizing ref with
  | nil => rfl
  | cons position path ih =>
    rw [List.cons_append, follow?, follow?]
    cases (tree.children ref)[position]? with
    | none => rfl
    | some child => exact ih

/-- What is reached from the root of a term that stands is a part of it. -/
theorem Stands.mem_refs_of_follow? (stands : tree.Stands term) {path : List Nat}
    (found : tree.follow? term.ref path = some ref) : ref ∈ term.refs := by
  induction path generalizing term with
  | nil =>
    obtain rfl := Option.some.inj found
    exact ref_mem_refs term
  | cons position path ih =>
    obtain ⟨child, isChild, found⟩ := Option.bind_eq_some_iff.1 found
    rw [stands.shown.here.children] at isChild
    obtain ⟨part, member, rfl⟩ := List.mem_map.1 (List.mem_of_getElem? isChild)
    have inside := child_mem_subterms member
    exact refs_subset inside (ih (stands.subterm inside) found)

/-- There is one way to every part of a term that stands. -/
theorem Stands.path_unique (stands : tree.Stands term) {path other : List Nat}
    (found : tree.follow? term.ref path = some ref)
    (foundOther : tree.follow? term.ref other = some ref) : path = other := by
  -- What is reached by going down is not the root.
  have deeper {term : Outline} (stands : tree.Stands term) {position : Nat} {path : List Nat} :
      tree.follow? term.ref (position :: path) ≠ some term.ref := by
    intro found
    obtain ⟨child, isChild, found⟩ := Option.bind_eq_some_iff.1 found
    rw [stands.shown.here.children] at isChild
    obtain ⟨part, member, rfl⟩ := List.mem_map.1 (List.mem_of_getElem? isChild)
    have inside := (stands.subterm (child_mem_subterms member)).mem_refs_of_follow? found
    exact ref_not_mem_innerRefs stands.once (mem_innerRefs.2 ⟨part, member, inside⟩)
  induction path generalizing term other with
  | nil =>
    obtain rfl := Option.some.inj found
    cases other with
    | nil => rfl
    | cons position path => exact absurd foundOther (deeper stands)
  | cons position path ih =>
    cases other with
    | nil =>
      obtain rfl := Option.some.inj foundOther
      exact absurd found (deeper stands)
    | cons position' path' =>
      obtain ⟨child, isChild, found⟩ := Option.bind_eq_some_iff.1 found
      obtain ⟨child', isChild', foundOther⟩ := Option.bind_eq_some_iff.1 foundOther
      rw [stands.shown.here.children, List.getElem?_map, Option.map_eq_some_iff] at isChild isChild'
      obtain ⟨part, isPart, rfl⟩ := isChild
      obtain ⟨part', isPart', rfl⟩ := isChild'
      have standsPart := stands.subterm (child_mem_subterms (List.mem_of_getElem? isPart))
      have standsPart' := stands.subterm (child_mem_subterms (List.mem_of_getElem? isPart'))
      have here := standsPart.mem_refs_of_follow? found
      have here' := standsPart'.mem_refs_of_follow? foundOther
      have once := stands.once
      rw [refs_eq] at once
      have apart := List.pairwise_iff_getElem.1 (List.nodup_flatMap.1 (List.nodup_cons.1 once).2).2
      obtain ⟨inside, isPart⟩ := List.getElem?_eq_some_iff.1 isPart
      obtain ⟨inside', isPart'⟩ := List.getElem?_eq_some_iff.1 isPart'
      rcases Nat.lt_trichotomy position position' with less | rfl | more
      · have apart := apart position position' inside inside' less
        rw [isPart, isPart'] at apart
        exact absurd here' (apart here)
      · obtain rfl : part = part' := isPart.symm.trans isPart'
        rw [ih standsPart found foundOther]
      · have apart := apart position' position inside' inside more
        rw [isPart, isPart'] at apart
        exact absurd here (apart here')

end

/-- A program is well formed. -/
theorem IsProgram.wellFormed {tree : Tree} {term : Outline} (program : tree.IsProgram term) :
    tree.WellFormed where
  root := program.root ▸ program.stands.hasRef (ref_mem_refs term)
  top := program.top
  once path other ref found foundOther :=
    program.stands.path_unique (program.root ▸ found) (program.root ▸ foundOther)
  linked path ref child found member := by
    rw [← program.root] at found
    obtain ⟨part, within, rfl⟩ := mem_refs.1 (program.stands.mem_refs_of_follow? found)
    rw [(program.stands.shows within).children] at member
    obtain ⟨lower, isChild, rfl⟩ := List.mem_map.1 member
    exact program.stands.parent within isChild
  stored := program.stored

/-- A kind that lies in the stores is a form over terms at its children. -/
theorem exists_depicts {tree : Tree} {kind : NodeKind}
    (hasSlot : ∀ slot ∈ kind.slots, tree.HasSlot slot)
    {pick : Ref → Outline} (picked : ∀ ref, (pick ref).ref = ref) :
    ∃ form, tree.Depicts kind form ∧ parts form = (tree.kindChildren kind).map pick := by
  have alike : List.Forall₂ Slot.Alike kind.slots (kind.slots.map (tree.content pick)) := by
    rw [List.forall₂_map_right_iff, List.forall₂_same]
    rintro ((_ | child) | range) _
    · exact .one
    · exact .one
    · exact .many
  have slots := @Kind.slots_withSlots _ _ _ _ kind none [] _ alike
  refine ⟨kind.withSlots none [] (kind.slots.map (tree.content pick)), ⟨?_, ?_⟩, ?_⟩
  · rw [slots, List.forall₂_map_right_iff, List.forall₂_same]
    rintro ((_ | child) | range) member
    · exact ⟨rfl, by simp⟩
    · refine ⟨picked _, ?_⟩
      rintro _ ⟨rfl⟩
      simp [picked]
    · refine ⟨?_, hasSlot _ member⟩
      rw [List.map_map]
      conv => lhs; rw [← List.map_id (tree.items range)]
      exact List.map_congr_left fun ref _ => (picked ref).symm
  · rw [Kind.skeleton_withSlots]
  · rw [parts, slots, List.flatMap_map, kindChildren, List.map_flatMap]
    congr 1
    funext slot
    rcases slot with (_ | child) | range <;> rfl

/-- The children of a node are stored where all lies in the stores. -/
theorem Stored.hasRef_of_child {tree : Tree} (stored : tree.Stored) {ref child : Ref}
    (member : child ∈ tree.children ref) : tree.HasRef child := by
  obtain ⟨slot, inside, held⟩ := List.mem_flatMap.1 member
  have hasSlot : tree.HasSlot slot := by
    cases ref with
    | none => cases inside
    | some number =>
      cases found : tree.nodes[number]? with
      | none => simp [kind, node, found, Node.missing] at inside
      | some here =>
        refine stored.slots here (Array.mem_of_getElem? found) slot ?_
        simpa [kind, node, found] using inside
  rcases slot with (_ | number) | range
  · cases held
  · obtain rfl := List.mem_singleton.1 held
    exact hasSlot (by simp)
  · refine stored.entries child ?_
    rw [slotChildren, items, Array.mem_toList_iff] at held
    obtain ⟨position, _, rfl⟩ := Array.mem_extract_iff_getElem.1 held
    exact Array.getElem_mem _

namespace WellFormed

variable {tree : Tree} {ref : Ref}

/-- What is reached is stored. -/
theorem hasRef (wellFormed : tree.WellFormed) {path : List Nat}
    (found : tree.follow? tree.root path = some ref) : tree.HasRef ref := by
  rcases List.eq_nil_or_concat path with rfl | ⟨front, position, rfl⟩
  · exact Option.some.inj found ▸ wellFormed.root
  · rw [List.concat_eq_append, follow?_append] at found
    obtain ⟨above, -, found⟩ := Option.bind_eq_some_iff.1 found
    obtain ⟨child, isChild, same⟩ := Option.bind_eq_some_iff.1 found
    obtain rfl := Option.some.inj same
    exact wellFormed.stored.hasRef_of_child (List.mem_of_getElem? isChild)

/-- No way down is as long as the tree has nodes, since the nodes on it are all different. -/
theorem length_lt (wellFormed : tree.WellFormed) {path : List Nat}
    (found : tree.follow? tree.root path = some ref) : path.length < tree.size := by
  have reached (count : Nat) : ∃ met, tree.follow? tree.root (path.take count) = some met := by
    rw [← List.take_append_drop count path, follow?_append] at found
    obtain ⟨met, found, -⟩ := Option.bind_eq_some_iff.1 found
    exact ⟨met, found⟩
  choose met meets using reached
  have different : ((List.range (path.length + 1)).map met).Nodup := by
    refine List.Nodup.map_on (fun left inLeft right inRight same => ?_) List.nodup_range
    have prefixes := wellFormed.once _ _ _ (meets left) (same ▸ meets right)
    have lengths := congrArg List.length prefixes
    simp only [List.length_take, List.mem_range] at lengths inLeft inRight
    omega
  have inside : (List.range (path.length + 1)).map met ⊆ (List.range tree.size).map some := by
    intro target member
    obtain ⟨count, -, rfl⟩ := List.mem_map.1 member
    obtain ⟨number, stored, same⟩ := wellFormed.hasRef (meets count)
    exact same ▸ List.mem_map_of_mem (List.mem_range.2 stored)
  have bound := (different.subperm inside).length_le
  rw [List.length_map, List.length_map, List.length_range, List.length_range] at bound
  exact bound

/-- A term stands at every node that is reached, and its nodes are reached from there. -/
theorem exists_stands (wellFormed : tree.WellFormed) {path : List Nat} {ref : Ref}
    (found : tree.follow? tree.root path = some ref) :
    ∃ term, tree.Stands term ∧ term.ref = ref ∧
      ∀ part ∈ term.refs, ∃ rest, tree.follow? ref rest = some part := by
  have each (position : Nat) (child : Ref) (isChild : (tree.children ref)[position]? = some child) :
      ∃ term, tree.Stands term ∧ term.ref = child ∧
        ∀ part ∈ term.refs, ∃ rest, tree.follow? child rest = some part := by
    have foundChild : tree.follow? tree.root (path ++ [position]) = some child := by
      rw [follow?_append, found]
      rw [Option.bind_some, follow?, isChild]
      rfl
    have deeper := wellFormed.length_lt foundChild
    exact exists_stands wellFormed foundChild
  have exists_pick (target : Ref) : ∃ term : Outline, term.ref = target ∧
      (target ∈ tree.children ref → tree.Stands term ∧
        ∀ part ∈ term.refs, ∃ rest, tree.follow? target rest = some part) := by
    by_cases member : target ∈ tree.children ref
    · obtain ⟨position, inside, rfl⟩ := List.getElem_of_mem member
      obtain ⟨term, stands, same, reached⟩ := each position _ (List.getElem?_eq_getElem inside)
      exact ⟨term, same, fun _ => ⟨stands, reached⟩⟩
    · exact ⟨.node ⟨target, .nowhere⟩ .null, rfl, fun inside => absurd inside member⟩
  choose pick picked good using exists_pick
  obtain ⟨number, stored, rfl⟩ := wellFormed.hasRef found
  have isNode : tree.nodes[number]? = some (tree.node (some number)) := by
    have stored : number < tree.nodes.size := stored
    simp [node, stored]
  have hasSlot := wellFormed.stored.slots _ (Array.mem_of_getElem? isNode)
  obtain ⟨form, depicts, same⟩ := exists_depicts hasSlot picked
  change parts form = (tree.children (some number)).map pick at same
  have childReached (child : Outline) (member : child ∈ parts form) (part : Ref)
      (inside : part ∈ child.refs) : ∃ position rest,
      (tree.children (some number))[position]? = some child.ref ∧
        tree.follow? (some number) (position :: rest) = some part := by
    rw [same] at member
    obtain ⟨target, isChild, rfl⟩ := List.mem_map.1 member
    obtain ⟨rest, follows⟩ := (good target isChild).2 part inside
    obtain ⟨position, bound, isTarget⟩ := List.getElem_of_mem isChild
    have isTarget := List.getElem?_eq_some_iff.2 ⟨bound, isTarget⟩
    refine ⟨position, rest, isTarget.trans (congrArg some (picked target).symm), ?_⟩
    exact Option.bind_eq_some_iff.2 ⟨target, isTarget, follows⟩
  have unique {left right : List Nat} {part : Ref}
      (first : tree.follow? (some number) left = some part)
      (second : tree.follow? (some number) right = some part) : left = right := by
    refine List.append_cancel_left (wellFormed.once (path ++ left) (path ++ right) part ?_ ?_)
    · rw [follow?_append, found]
      exact first
    · rw [follow?_append, found]
      exact second
  refine ⟨.node ⟨some number, tree.span (some number)⟩ form, ⟨?_, ?_, ?_⟩, rfl, ?_⟩
  · refine All.node_iff.2 ⟨⟨number, tree.kind (some number), rfl, isNode, depicts⟩, ?_⟩
    intro child member
    rw [same] at member
    obtain ⟨target, isChild, rfl⟩ := List.mem_map.1 member
    exact (good target isChild).1.shown
  · refine All.node_iff.2 ⟨fun child member => ?_, fun child member => ?_⟩
    all_goals
      simp only [Term.children, Term.kind, same] at member
      obtain ⟨target, isChild, rfl⟩ := List.mem_map.1 member
    · exact (picked target).symm ▸ wellFormed.linked path _ target found isChild
    · exact (good target isChild).1.adopted
  · rw [refs_node, List.nodup_cons, List.nodup_flatMap]
    refine ⟨fun member => ?_, fun child member => ?_, ?_⟩
    · obtain ⟨child, isPart, inside⟩ := List.mem_flatMap.1 member
      obtain ⟨position, rest, -, follows⟩ := childReached child isPart _ inside
      cases @unique _ [] _ follows rfl
    · rw [same] at member
      obtain ⟨target, isChild, rfl⟩ := List.mem_map.1 member
      exact (good target isChild).1.once
    · rw [List.pairwise_iff_getElem]
      intro left right inLeft inRight less part here there
      have position {index : Nat} (bound : index < (parts form).length)
          (inside : part ∈ (parts form)[index].refs) :
          ∃ rest, tree.follow? (some number) (index :: rest) = some part := by
        have bound' : index < (tree.children (some number)).length := by
          simpa [same] using bound
        have isChild : (tree.children (some number))[index]? = some (parts form)[index].ref := by
          rw [List.getElem?_eq_getElem bound']
          simp only [same, List.getElem_map, picked]
        have isPart : (parts form)[index] = pick (tree.children (some number))[index] := by
          simp only [same, List.getElem_map]
        rw [isPart] at inside
        obtain ⟨rest, follows⟩ := (good _ (List.getElem_mem bound')).2 part inside
        exact ⟨rest, Option.bind_eq_some_iff.2 ⟨_, List.getElem?_eq_getElem bound', follows⟩⟩
      obtain ⟨rest, follows⟩ := position inLeft here
      obtain ⟨rest', follows'⟩ := position inRight there
      cases unique follows follows'
      exact Nat.lt_irrefl _ less
  · intro part inside
    rw [refs_node, List.mem_cons] at inside
    rcases inside with rfl | inside
    · exact ⟨[], rfl⟩
    · obtain ⟨child, isPart, inside⟩ := List.mem_flatMap.1 inside
      obtain ⟨position, rest, -, follows⟩ := childReached child isPart part inside
      exact ⟨_, follows⟩
termination_by tree.size - path.length
decreasing_by
  simp only [List.length_append, List.length_singleton] at deeper ⊢
  omega

end WellFormed

/-- The well-formed trees are those in which a term stands at the root. -/
theorem wellFormed_iff {tree : Tree} : tree.WellFormed ↔ ∃ term, tree.IsProgram term := by
  constructor
  · intro wellFormed
    obtain ⟨term, stands, root, -⟩ :=
      wellFormed.exists_stands (show tree.follow? tree.root [] = some tree.root from rfl)
    exact ⟨term, stands, root, wellFormed.top, wellFormed.stored⟩
  · rintro ⟨term, program⟩
    exact program.wellFormed

end Tree

end Refactory
