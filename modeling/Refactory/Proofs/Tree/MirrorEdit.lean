import Refactory.Proofs.Tree.Mirror
import Refactory.Proofs.Tree.Versions

/-!
# Editing mirrored trees

The same edit of a tree and of an image of it, at nodes that correspond, leaves a tree and an image
of it, and what the edits give corresponds (`Edit.Tracks`). Edits that only add to a tree leave all
ways down from its nodes as they were (`Tree.Grows`), so that later walks in the image still find
what they find in the tree.
-/
namespace Refactory

variable {number : Nat} {slot slot' : NodeSlot} {kind kind' : NodeKind} {bound : Nat} {ref : Ref}
  {slots slots' : List NodeSlot}

namespace Tree

/-- Nodes and lists were added, and all else is as before but for versions and for links to
parents. -/
structure Grows (before after : Tree) : Prop where
  /-- No node is lost. -/
  size : before.size ≤ after.size
  /-- No node is another one. -/
  kind : ∀ number < before.size, after.kind (some number) = before.kind (some number)
  /-- No list is lost. -/
  lists : before.lists.toList <+: after.lists.toList

namespace Grows

variable {before middle after : Tree}

@[refl] theorem refl (tree : Tree) : tree.Grows tree :=
    ⟨Nat.le_refl _, fun _ _ => rfl, List.prefix_rfl⟩

theorem trans (first : before.Grows middle) (second : middle.Grows after) : before.Grows after where
  size := Nat.le_trans first.size second.size
  kind number inside :=
    (second.kind number (Nat.lt_of_lt_of_le inside first.size)).trans (first.kind number inside)
  lists := first.lists.trans second.lists

end Grows

section

variable {move : Nat → Nat} {tree image after afterImage : Tree}

/-- A list still corresponds to a list when lists are added. -/
theorem MirrorsRange.grow {range range' : Range}
    (mirrors : MirrorsRange move tree image range range')
    (lists : tree.lists.toList <+: after.lists.toList)
    (listsImage : image.lists.toList <+: afterImage.lists.toList) :
    MirrorsRange move after afterImage range range' where
  items := by
    rw [items_of_longer lists mirrors.stored, items_of_longer listsImage mirrors.storedImage,
      mirrors.items]
  length := mirrors.length
  stored := Nat.le_trans mirrors.stored (by simpa using lists.length_le)
  storedImage := Nat.le_trans mirrors.storedImage (by simpa using listsImage.length_le)

theorem MirrorsSlot.grow (mirrors : MirrorsSlot move tree image slot slot')
    (lists : tree.lists.toList <+: after.lists.toList)
    (listsImage : image.lists.toList <+: afterImage.lists.toList) :
    MirrorsSlot move after afterImage slot slot' := by
  cases slot with
  | one child => exact mirrorsSlot_one_iff.2 (mirrorsSlot_one_iff.1 mirrors)
  | many range =>
    obtain ⟨range', rfl, mirrors⟩ := mirrorsSlot_many_iff.1 mirrors
    exact MirrorsRange.grow mirrors lists listsImage

theorem MirrorsKind.grow (mirrors : MirrorsKind move tree image kind kind')
    (lists : tree.lists.toList <+: after.lists.toList)
    (listsImage : image.lists.toList <+: afterImage.lists.toList) :
    MirrorsKind move after afterImage kind kind' :=
  ⟨mirrors.slots.imp fun _ _ slot => slot.grow lists listsImage, mirrors.skeleton⟩

/-- What holds of the pairs of two lists of which more is known. -/
theorem forall₂_of_mem {α β : Type} {related related' : α → β → Prop} {items : List α}
    {items' : List β}
    (all : List.Forall₂ related items items')
    (each : ∀ item item', item ∈ items → related item item' → related' item item') :
    List.Forall₂ related' items items' := by
  induction all with
  | nil => exact .nil
  | cons here _ ih =>
    exact .cons (each _ _ (.head _) here)
      (ih fun item item' member => each item item' (.tail _ member))

/-- A child position whose list is stored has the children that it had before lists were added. -/
theorem MirrorsSlot.slotChildren_eq (mirrors : MirrorsSlot move tree image slot slot')
    (lists : tree.lists.toList <+: after.lists.toList) :
    after.slotChildren slot = tree.slotChildren slot := by
  cases slot with
  | one child => cases child <;> rfl
  | many range =>
    obtain ⟨range', rfl, mirrors⟩ := mirrorsSlot_many_iff.1 mirrors
    exact items_of_longer lists mirrors.stored

/-- A kind has the children that it had before lists were added. -/
theorem MirrorsKind.kindChildren_eq (mirrors : MirrorsKind move tree image kind kind')
    (lists : tree.lists.toList <+: after.lists.toList) :
    after.kindChildren kind = tree.kindChildren kind := by
  refine List.flatMap_congr fun slot inside => ?_
  obtain ⟨slot', -, here⟩ := exists_of_mem_right mirrors.slots.flip inside
  exact MirrorsSlot.slotChildren_eq here lists

theorem kind_push (tree : Tree) (node : Node) (parents : Array Ref) (ref : Ref) :
    { tree with nodes := tree.nodes.push node, parents }.kind ref
      = if ref = some tree.size then node.kind else tree.kind ref := by
  cases ref with
  | none => simp [Tree.kind, Tree.node]
  | some number =>
    simp only [Tree.kind, Tree.node, Array.getElem?_push, size, Option.some.injEq]
    split <;> rfl

theorem kind_set (tree : Tree) (inside : number < tree.nodes.size) (node : Node) (ref : Ref) :
    { tree with nodes := tree.nodes.set number node }.kind ref
      = if ref = some number then node.kind else tree.kind ref := by
  cases ref with
  | none => simp [Tree.kind, Tree.node]
  | some other =>
    simp only [Tree.kind, Tree.node, Array.getElem?_set, Option.some.injEq, eq_comm (a := other)]
    split <;> rfl

theorem parent_push (tree : Tree) (nodes : Array Node) (ref : Ref) :
    { tree with nodes, parents := tree.parents.push none }.parent ref = tree.parent ref := by
  cases ref with
  | none => rfl
  | some number =>
    simp only [Tree.parent, Array.getElem?_push]
    split <;> simp_all

theorem kind_of_nodes {before after : Tree} (nodes : after.nodes = before.nodes) (ref : Ref) :
    after.kind ref = before.kind ref := by
  cases ref <;> simp [Tree.kind, Tree.node, nodes]

namespace Mirrors

variable (mirrors : tree.Mirrors move image)

include mirrors

/-- A node has the children that it had before nodes and lists were added. -/
theorem children_of_grows (grows : tree.Grows after) (inside : number < tree.size) :
    after.children (some number) = tree.children (some number) := by
  rw [Tree.children, grows.kind number inside]
  exact (mirrors.kind (some number)).kindChildren_eq grows.lists

theorem ends_of_grows (grows : tree.Grows after) (ends : tree.Ends bound ref) :
    after.Ends bound ref := by
  induction bound generalizing ref with
  | zero => exact ends
  | succ bound ih =>
    refine ⟨fun number same =>
      Nat.lt_of_lt_of_le (ends.1 number same) grows.size, fun child member => ?_⟩
    cases ref with
    | none => cases member
    | some number =>
      rw [mirrors.children_of_grows grows (ends.1 number rfl)] at member
      exact ih (ends.2 child member)

/-- The ways down from a node still end when nodes and lists are added. -/
theorem grounded_of_grows (grows : tree.Grows after) (grounded : tree.Grounded ref) :
    after.Grounded ref :=
  fun present => (mirrors.ends_of_grows grows (grounded present)).mono (Nat.succ_le_succ grows.size)

/-- Trees of the same nodes mirror one another when lists are added and links to parents are
changed. -/
theorem of_nodes (nodes : after.nodes = tree.nodes) (nodesImage : afterImage.nodes = image.nodes)
    (lists : tree.lists.toList <+: after.lists.toList)
    (listsImage : image.lists.toList <+: afterImage.lists.toList)
    (parents : after.parents.size = tree.parents.size)
    (parentsImage : afterImage.parents.size = image.parents.size)
    (parent : ∀ ref, afterImage.parent (ref.map move) = (after.parent ref).map move)
    (root : afterImage.root = after.root.map move) : after.Mirrors move afterImage where
  injective := mirrors.injective
  fresh count := by
    rw [Tree.size, Tree.size, nodes, nodesImage, ← Tree.size, ← Tree.size, mirrors.fresh]
  size := by rw [Tree.size, Tree.size, nodes, nodesImage]; exact mirrors.size
  kind ref := by
    rw [kind_of_nodes nodes, kind_of_nodes nodesImage]
    exact (mirrors.kind ref).grow lists listsImage
  parent := parent
  root := root
  aligned := by rw [parents, Tree.size, nodes, ← Tree.size, mirrors.aligned]
  alignedImage := by rw [parentsImage, Tree.size, nodesImage, ← Tree.size, mirrors.alignedImage]

theorem touch : tree.touch.Mirrors move image.touch :=
  mirrors.of_nodes rfl rfl List.prefix_rfl List.prefix_rfl rfl rfl mirrors.parent mirrors.root

/-- A node with an entry for its parent has one in the image. -/
theorem hasParent_iff
    (number : Nat) : move number < image.parents.size ↔ number < tree.parents.size := by
  rw [mirrors.aligned, mirrors.alignedImage, mirrors.lt_size_iff]

theorem setParent (ref parent : Ref) :
    (tree.setParent ref parent).Mirrors move
    (image.setParent (ref.map move) (parent.map move)) := by
  refine mirrors.of_nodes (by simp) (by simp) (by simp) (by simp) (by simp) (by simp)
    (fun other => ?_)
    (by simp [mirrors.root])
  cases ref with
  | none => exact mirrors.parent other
  | some target =>
    cases other with
    | none => rfl
    | some number =>
      by_cases same : number = target
      · subst same
        simp only [Option.map_some, Tree.setParent, Tree.parent, Array.getElem?_setIfInBounds_self,
          mirrors.hasParent_iff]
        split <;> rfl
      · have differ : move number ≠ move target := fun equal => same (mirrors.injective equal)
        have here := mirrors.parent (some number)
        simpa [Tree.setParent, Tree.parent, same, Ne.symm same, differ, Ne.symm differ] using here

theorem setParents (parent : Ref) (children : List Ref) :
    (children.foldl (fun tree child => tree.setParent child parent) tree).Mirrors move
      ((children.map (Option.map move)).foldl
        (fun tree child => tree.setParent child (parent.map move)) image) := by
  induction children generalizing tree image with
  | nil => exact mirrors
  | cons child children ih => exact ih (mirrors.setParent child parent)

theorem adopt (kinds : MirrorsKind move tree image kind kind') (parent : Ref) :
    (tree.adopt parent kind).Mirrors move (image.adopt (parent.map move) kind') := by
  rw [Tree.adopt, Tree.adopt, kinds.children]
  exact mirrors.setParents parent _

/-- The node that is added next corresponds to the one that is added to the image. -/
theorem map_eq_size_iff (ref : Ref) : ref.map move = some image.size ↔ ref = some tree.size := by
  have fresh := mirrors.fresh 0
  simp only [Nat.add_zero] at fresh
  rw [← fresh, ← Option.map_some, mirrors.map_inj]

theorem push (kinds : MirrorsKind move tree image kind kind') (span span' : Span) :
    { tree with nodes := tree.nodes.push ⟨kind, span⟩, parents :=
    tree.parents.push none }.Mirrors move
      { image with nodes := image.nodes.push ⟨kind', span'⟩, parents :=
      image.parents.push none } where
  injective := mirrors.injective
  fresh count := by
    simpa [Tree.size, Nat.add_right_comm, Nat.add_assoc] using mirrors.fresh (count + 1)
  size := by simpa [Tree.size] using mirrors.size
  kind ref := by
    rw [kind_push, kind_push]
    by_cases new : ref = some tree.size
    · rw [if_pos new, if_pos ((mirrors.map_eq_size_iff ref).2 new)]
      exact kinds.grow List.prefix_rfl List.prefix_rfl
    · rw [if_neg new, if_neg (mt (mirrors.map_eq_size_iff ref).1 new)]
      exact (mirrors.kind ref).grow List.prefix_rfl List.prefix_rfl
  parent ref := by
    rw [parent_push, parent_push]
    exact mirrors.parent ref
  root := mirrors.root
  aligned := by simpa [Tree.size] using mirrors.aligned
  alignedImage := by simpa [Tree.size] using mirrors.alignedImage

theorem setNode (kinds : MirrorsKind move tree image kind kind') (inside : number < tree.nodes.size)
    (insideImage : move number < image.nodes.size) (span span' : Span) :
    { tree with nodes := tree.nodes.set number ⟨kind, span⟩ }.Mirrors move
      { image with nodes := image.nodes.set (move number) ⟨kind', span'⟩ } where
  injective := mirrors.injective
  fresh count := by simpa [Tree.size] using mirrors.fresh count
  size := by simpa [Tree.size] using mirrors.size
  kind ref := by
    rw [kind_set, kind_set]
    have same := @map_inj _ _ _ mirrors ref (some number)
    rw [Option.map_some] at same
    by_cases here : ref = some number
    · rw [if_pos here, if_pos (same.2 here)]
      exact kinds.grow List.prefix_rfl List.prefix_rfl
    · rw [if_neg here, if_neg (mt same.1 here)]
      exact (mirrors.kind ref).grow List.prefix_rfl List.prefix_rfl
  parent := mirrors.parent
  root := mirrors.root
  aligned := by simpa [Tree.size] using mirrors.aligned
  alignedImage := by simpa [Tree.size] using mirrors.alignedImage

end Mirrors

end

/-- A tree and an image of it have both grown, to a tree and an image of it. -/
structure GrowAlike (move : Nat → Nat) (tree image after afterImage : Tree) : Prop where
  /-- The one was an image of the other. -/
  mirrored : tree.Mirrors move image
  /-- It still is. -/
  mirrors : after.Mirrors move afterImage
  /-- The tree has grown. -/
  grows : tree.Grows after
  /-- The image has grown. -/
  growsImage : image.Grows afterImage

namespace GrowAlike

variable {move : Nat → Nat} {tree image middle middleImage after afterImage : Tree}

theorem refl (mirrors : tree.Mirrors move image) : GrowAlike move tree image tree image :=
  ⟨mirrors, mirrors, .refl tree, .refl image⟩

theorem trans (first : GrowAlike move tree image middle middleImage)
    (second : GrowAlike move middle middleImage after afterImage) :
    GrowAlike move tree image after afterImage :=
  ⟨first.mirrored, second.mirrors, first.grows.trans second.grows,
    first.growsImage.trans second.growsImage⟩

theorem ends (grow : GrowAlike move tree image after afterImage)
    (ends : tree.Ends bound ref) : after.Ends bound ref :=
    grow.mirrored.ends_of_grows grow.grows ends

theorem grounded (grow : GrowAlike move tree image after afterImage)
    (grounded : tree.Grounded ref) :
    after.Grounded ref := grow.mirrored.grounded_of_grows grow.grows grounded

end GrowAlike

end Tree

/-- An edit of a tree and one of an image of it lead to a tree and an image of it that have grown,
and what they give is as said. -/
def Edit.Tracks {α β : Type} (move : Nat → Nat) (edit : Edit α) (edit' : Edit β) (tree image : Tree)
    (post : Tree → Tree → α → β → Prop) : Prop :=
  tree.Mirrors move image → Tree.GrowAlike move tree image (edit tree).2 (edit' image).2 ∧
    post (edit tree).2 (edit' image).2 (edit tree).1 (edit' image).1

namespace Edit.Tracks

open Refactory.Tree

variable {α β γ δ : Type} {move : Nat → Nat} {tree image : Tree} {edit : Edit α} {edit' : Edit β}
  {post post' : Tree → Tree → α → β → Prop}

theorem pure {value : α} {value' : β}
    (posted : tree.Mirrors move image → post tree image value value') :
    Edit.Tracks move (Pure.pure value) (Pure.pure value') tree image post :=
  fun mirrors => ⟨.refl mirrors, posted mirrors⟩

theorem mono (tracks : Edit.Tracks move edit edit' tree image post)
    (weaken : ∀ after afterImage value value', GrowAlike move tree image after afterImage →
      post after afterImage value value' → post' after afterImage value value') :
    Edit.Tracks move edit edit' tree image post' :=
  fun mirrors => ⟨(tracks mirrors).1, weaken _ _ _ _ (tracks mirrors).1 (tracks mirrors).2⟩

theorem bind {next : α → Edit γ} {next' : β → Edit δ} {post' : Tree → Tree → γ → δ → Prop}
    (first : Edit.Tracks move edit edit' tree image post)
    (others : ∀ after afterImage value value', GrowAlike move tree image after afterImage →
      post after afterImage value value' →
        Edit.Tracks move (next value) (next' value') after afterImage post') :
    Edit.Tracks move (edit >>= next) (edit' >>= next') tree image post' := by
  intro mirrors
  obtain ⟨grow, posted⟩ := first mirrors
  obtain ⟨grow', posted'⟩ := others _ _ _ _ grow posted grow.mirrors
  exact ⟨grow.trans grow', posted'⟩

/-- What is known besides of what the edit of the tree comes to. -/
theorem also (tracks : Edit.Tracks move edit edit' tree image post) (fact : Tree → α → Prop)
    (holds : fact (edit tree).2 (edit tree).1) : Edit.Tracks move edit edit' tree image
      fun after afterImage value value' => post after afterImage value value' ∧ fact after value :=
  fun mirrors => ⟨(tracks mirrors).1, (tracks mirrors).2, holds⟩

/-- That the one tree mirrors the other may be used of the trees before. -/
theorem given (tracks : tree.Mirrors move image → Edit.Tracks move edit edit' tree image post) :
    Edit.Tracks move edit edit' tree image post := fun mirrors => tracks mirrors mirrors

theorem get_bind {next : Tree → Edit α} {next' : Tree → Edit β}
    (tracks : Edit.Tracks move (next tree) (next' image) tree image post) :
    Edit.Tracks move (MonadState.get >>= next) (MonadState.get >>= next') tree image post := tracks

/-- What holds of the results for each element of a list, and lasts, holds of all. -/
theorem mapM {edit : α → Edit γ} {edit' : β → Edit δ} {items : List α} {items' : List β}
    {post : Tree → Tree → γ → δ → Prop}
    (lasting : ∀ before beforeImage after afterImage value value',
      GrowAlike move before beforeImage after afterImage →
      post before beforeImage value value' → post after afterImage value value')
    (each : List.Forall₂
      (fun item item' => ∀ middle middleImage, GrowAlike move tree image middle middleImage →
      Edit.Tracks move (edit item) (edit' item') middle middleImage post) items items') :
    Edit.Tracks move (items.mapM edit) (items'.mapM edit') tree image
      fun after afterImage => List.Forall₂ (post after afterImage) := by
  induction items generalizing items' tree image with
  | nil =>
    obtain rfl := List.forall₂_nil_left_iff.1 each
    exact .pure fun _ => .nil
  | cons item items ih =>
    obtain ⟨item', items', here, others, rfl⟩ := List.forall₂_cons_left_iff.1 each
    rw [List.mapM_cons, List.mapM_cons]
    refine .given fun mirrors =>
      (here tree image (.refl mirrors)).bind fun middle middleImage value value' grow posted => ?_
    refine .bind (ih (others.imp fun item item' tracks after afterImage grow' =>
      tracks after afterImage (grow.trans grow')))
      fun after afterImage values values' grow' posteds => .pure fun _ =>
        .cons (lasting _ _ _ _ _ _ grow' posted) posteds

end Edit.Tracks

namespace Tree

/-- A node and one of the image correspond, and where a condition holds, the ways down from it
end. -/
def Twins (move : Nat → Nat) (given : Prop) (tree _image : Tree) (ref ref' : Ref) : Prop :=
  ref' = ref.map move ∧ (given → tree.Grounded ref)

section

variable {move : Nat → Nat} {tree image : Tree}

theorem Twins.grow {given : Prop} {after afterImage : Tree} {ref' : Ref}
    (twins : Twins move given tree image ref ref')
    (grow : GrowAlike move tree image after afterImage) :
    Twins move given after afterImage ref ref' :=
  ⟨twins.1, fun holds => grow.grounded (twins.2 holds)⟩

theorem grows_of_push {after : Tree} (node : Node) (nodes : after.nodes = tree.nodes.push node)
    (lists : after.lists = tree.lists) : tree.Grows after where
  size := by simp [size, nodes]
  kind number inside := by
    have differ : number ≠ tree.nodes.size := Nat.ne_of_lt inside
    simp [Tree.kind, Tree.node, nodes, Array.getElem?_push, differ]
  lists := lists ▸ List.prefix_rfl

theorem Grounded.ends (grounded : tree.Grounded ref) : tree.Ends tree.depthBound ref := by
  cases ref with
  | none => exact ⟨nofun, nofun⟩
  | some number => exact grounded nofun

/-- Adding a node to a tree and to the image. -/
theorem alloc_tracks (kinds : tree.Mirrors move image → MirrorsKind move tree image kind kind')
    (span span' : Span) : Edit.Tracks move (alloc kind span) (alloc kind' span') tree image
      (Twins move (∀ child ∈ tree.kindChildren kind, tree.Grounded child)) := by
  intro mirrors
  have grows : tree.Grows (alloc kind span tree).2 :=
    grows_of_push ⟨kind, span⟩ (by simp [alloc]) (by simp [alloc])
  have growsImage : image.Grows (alloc kind' span' image).2 :=
    grows_of_push ⟨kind', span'⟩ (by simp [alloc]) (by simp [alloc])
  have same : some image.size = (some tree.size).map move :=
    ((mirrors.map_eq_size_iff _).2 rfl).symm
  have pushed := mirrors.push (kinds mirrors) span span'
  have adopted :=
    pushed.adopt ((kinds mirrors).grow List.prefix_rfl List.prefix_rfl) (some tree.size)
  rw [← same] at adopted
  refine ⟨⟨mirrors, adopted.touch, grows, growsImage⟩, same, fun below present => ?_⟩
  have size : (alloc kind span tree).2.size = tree.size + 1 := by simp [alloc, Tree.size]
  have children : (alloc kind span tree).2.children (some tree.size) = tree.kindChildren kind := by
    have here : (alloc kind span tree).2.kind (some tree.size) = kind := by
      simp [alloc, Tree.kind, Tree.node, Tree.size]
    rw [Tree.children, here]
    exact (kinds mirrors).kindChildren_eq (by simp [alloc])
  refine ⟨fun number isNew => ?_, fun child member => ?_⟩
  · obtain rfl := Option.some.inj isNew
    exact size ▸ Nat.lt_succ_self _
  · replace member := children ▸ member
    rw [size]
    exact mirrors.ends_of_grows grows (below child member).ends

/-- Adding a list to a tree and to the image. -/
theorem allocList_tracks (refs : List Ref) :
    Edit.Tracks move (allocList refs) (allocList (refs.map (Option.map move))) tree image
      fun after afterImage range range' =>
        (MirrorsRange move after afterImage range range' ∧ after.items range = refs) ∧
        range = ⟨tree.lists.size, refs.length⟩ ∧ range' = ⟨image.lists.size, refs.length⟩ := by
  intro mirrors
  have items : (allocList refs tree).2.items (allocList refs tree).1 = refs := by
    simp [allocList, Tree.items]
  have items' : (allocList (refs.map (Option.map move)) image).2.items
      (allocList (refs.map (Option.map move)) image).1
      = refs.map (Option.map move) := by
    simp [allocList, Tree.items, ← List.map_take]
  have grows (tree : Tree) (refs : List Ref) : tree.Grows (allocList refs tree).2 :=
    ⟨Nat.le_refl _, fun _ _ => rfl, by simp [allocList]⟩
  refine ⟨⟨mirrors, ?_, grows tree _, grows image _⟩, ⟨⟨?_, ?_, ?_, ?_⟩, items⟩,
    rfl, by simp [allocList]⟩
  · exact mirrors.of_nodes rfl rfl (grows tree refs).lists
      (grows image _).lists rfl rfl mirrors.parent mirrors.root
  · rw [items, items']
  · simp [allocList]
  · simp [allocList]
  · simp [allocList]

/-- A child position holds what one of the image holds, and the ways down from there end. -/
def SlotTwins (move : Nat → Nat) (tree image : Tree) (slot slot' : NodeSlot) : Prop :=
  MirrorsSlot move tree image slot slot' ∧ ∀ child ∈ tree.slotChildren slot, tree.Grounded child

theorem SlotTwins.grow {after afterImage : Tree} (twins : SlotTwins move tree image slot slot')
    (grow : GrowAlike move tree image after afterImage) :
    SlotTwins move after afterImage slot slot' := by
  refine ⟨twins.1.grow grow.grows.lists grow.growsImage.lists, fun child member =>
    grow.grounded (twins.2 child ?_)⟩
  rwa [twins.1.slotChildren_eq grow.grows.lists] at member

theorem SlotTwins.absent : SlotTwins move tree image (.one none) (.one none) := ⟨rfl, nofun⟩

theorem SlotTwins.one {child child' : Ref} (twins : Twins move True tree image child child') :
    SlotTwins move tree image (.one child) (.one child') := by
  refine ⟨twins.1, fun other member => ?_⟩
  cases child with
  | none => cases member
  | some number =>
    obtain rfl := List.mem_singleton.1 member
    exact twins.2 trivial

theorem SlotTwins.many {range range' : Range} (lists : MirrorsRange move tree image range range')
    (grounded : ∀ child ∈ tree.items range, tree.Grounded child) :
    SlotTwins move tree image (.many range) (.many range') := ⟨lists, grounded⟩

/-- The list of no entries stands for itself. -/
theorem SlotTwins.empty : SlotTwins move tree image (.many .empty) (.many .empty) :=
  .many ⟨by simp [Tree.items, Range.empty], rfl, Nat.zero_le _, Nat.zero_le _⟩
    (by simp [Tree.items, Range.empty])

theorem MirrorsSlot.alike (mirrors : MirrorsSlot move tree image slot slot') :
    Slot.Alike slot slot' := by
  cases slot <;> cases slot' <;> first | exact mirrors.elim | constructor

/-- Child positions that are filled from lists of related ones are related. -/
theorem forall₂_slots_withSlots {related : NodeSlot → NodeSlot → Prop}
    (alike : ∀ slot slot', related slot slot' → Slot.Alike slot slot')
    (absent : related (.one none) (.one none))
    (empty : related (.many .empty) (.many .empty)) (kind : NodeKind)
    (all : List.Forall₂ related slots slots') :
    List.Forall₂ related (kind.withSlots none .empty slots).slots
    (kind.withSlots none .empty slots').slots := by
  have filled (position : Nat) :
      related (.one (Slot.oneD none slots[position]?)) (.one (Slot.oneD none slots'[position]?)) ∧
      related (.many (Slot.manyD .empty slots[position]?))
        (.many (Slot.manyD .empty slots'[position]?)) := by
    induction all generalizing position with
    | nil => exact ⟨absent, empty⟩
    | cons here _ ih =>
      cases position with
      | succ position => simpa using ih position
      | zero =>
        cases alike _ _ here with
        | one => exact ⟨here, empty⟩
        | many => exact ⟨absent, here⟩
  cases kind <;> simp only [Kind.withSlots, Kind.slots, List.forall₂_cons,
    List.forall₂_nil_right_iff, filled, and_self]

/-- A kind with other child positions corresponds to one with corresponding ones. -/
theorem MirrorsKind.withSlots
    (skeleton : kind'.skeleton = kind.skeleton)
    (all : List.Forall₂ (MirrorsSlot move tree image) slots slots') :
    MirrorsKind move tree image (kind.withSlots none .empty slots)
    (kind'.withSlots none .empty slots') := by
  rw [← Kind.withSlots_skeleton kind', skeleton, Kind.withSlots_skeleton]
  have absent : MirrorsSlot move tree image (.one none) (.one none) := rfl
  refine ⟨forall₂_slots_withSlots (fun _ _ here => here.alike) absent SlotTwins.empty.1 kind all,
    ?_⟩
  rw [Kind.skeleton_withSlots, Kind.skeleton_withSlots]

/-- The ways down from it end if they do from the child positions. -/
theorem grounded_withSlots
    (twins : List.Forall₂ (SlotTwins move tree image) slots slots') :
    ∀ child ∈ tree.kindChildren (kind.withSlots none .empty slots), tree.Grounded child := by
  have all := forall₂_slots_withSlots
    (fun _ _ here => here.1.alike) SlotTwins.absent SlotTwins.empty kind twins
  intro child member
  obtain ⟨slot, inside, here⟩ := List.mem_flatMap.1 member
  obtain ⟨slot', -, twins⟩ := exists_of_mem_right all.flip inside
  exact twins.2 child here

/-- Adding a node with the child positions of others. -/
theorem allocSlots_tracks {span span' : Span} (skeleton : kind'.skeleton = kind.skeleton)
    (twins : List.Forall₂ (SlotTwins move tree image) slots slots') :
    Edit.Tracks move (alloc (kind.withSlots none .empty slots) span)
    (alloc (kind'.withSlots none .empty slots') span') tree image (Twins move True) :=
  (alloc_tracks (fun _ => .withSlots skeleton (twins.imp fun _ _ here => here.1)) span span').mono
    fun _ _ _ _ _ found => ⟨found.1, fun _ => found.2 (grounded_withSlots twins)⟩

/-- Lists of nodes that correspond. -/
theorem Twins.list {given : Prop} {refs refs' : List Ref}
    (twins : List.Forall₂ (Twins move given tree image) refs refs') :
    refs' = refs.map (Option.map move) ∧ (given → ∀ ref ∈ refs, tree.Grounded ref) := by
  induction twins with
  | nil => exact ⟨rfl, fun _ => nofun⟩
  | cons here _ ih =>
    refine ⟨by rw [List.map_cons, here.1,
      ih.1], fun holds => List.forall_mem_cons.2 ⟨here.2 holds, ih.2 holds⟩⟩

/-- Adding a list of nodes for a child position. -/
theorem slotOf_tracks {refs refs' : List Ref}
    (twins : List.Forall₂ (Twins move True tree image) refs refs') :
    Edit.Tracks move (do return .many (← allocList refs))
    (do return .many (← allocList refs')) tree image (SlotTwins move) := by
  obtain ⟨rfl, grounded⟩ := Twins.list twins
  refine (allocList_tracks refs).bind fun after afterImage range range' grow ⟨⟨lists, items⟩, _⟩ =>
    .pure fun _ => ?_
  exact .many lists fun child member => grow.grounded (grounded trivial child (items ▸ member))

/-- Copying the content of a child position, of which the parts are copied alike. -/
theorem duplicateSlot_tracks {copy copy' : Ref → Edit Ref}
    (here : MirrorsSlot move tree image slot slot') (copies : ∀ child ∈ tree.slotChildren slot,
      ∀ after afterImage, GrowAlike move tree image after afterImage →
      Edit.Tracks move (copy child) (copy' (child.map move)) after afterImage (Twins move True)) :
    Edit.Tracks move (duplicateSlot copy slot) (duplicateSlot copy' slot') tree image
    (SlotTwins move) := by
  cases slot with
  | one child =>
    obtain rfl := mirrorsSlot_one_iff.1 here
    cases child with
    | none => exact .pure fun _ => .absent
    | some number =>
      exact .given fun mirrors => (copies _ (.head _) _ _ (.refl mirrors)).bind
        fun _ _ _ _ _ twins => .pure fun _ => .one twins
  | many range =>
    obtain ⟨range', rfl, lists⟩ := mirrorsSlot_many_iff.1 here
    have all :
        Edit.Tracks move ((tree.items range).mapM copy) ((image.items range').mapM copy') tree image
        fun after afterImage => List.Forall₂ (Twins move True after afterImage) := by
      refine .mapM (fun _ _ _ _ _ _ grow twins => twins.grow grow) ?_
      rw [lists.items, List.forall₂_map_right_iff, List.forall₂_same]
      exact copies
    exact .get_bind (all.bind fun _ _ _ _ _ twins => slotOf_tracks twins)

theorem duplicateWithin_tracks {bound' : Nat} (ends : tree.Ends bound ref)
    (ends' : tree.Ends bound' ref) :
    Edit.Tracks move (duplicateWithin bound ref) (duplicateWithin bound' (ref.map move)) tree image
      (Twins move True) := by
  induction bound generalizing bound' ref tree image with
  | zero => exact ends.elim
  | succ bound ih =>
    cases bound' with
    | zero => exact ends'.elim
    | succ bound' =>
      rw [duplicateWithin, duplicateWithin]
      refine .given fun mirrors => ?_
      have copies :
          Edit.Tracks move ((tree.kind ref).slots.mapM (duplicateSlot (duplicateWithin bound)))
            ((image.kind (ref.map move)).slots.mapM (duplicateSlot (duplicateWithin bound')))
          tree image
          fun after afterImage => List.Forall₂ (SlotTwins move after afterImage) := by
        refine .mapM (fun _ _ _ _ _ _ grow twins => twins.grow grow) ?_
        refine forall₂_of_mem (mirrors.kind ref).slots
          fun slot slot' inside here middle middleImage grow => ?_
        refine duplicateSlot_tracks (here.grow grow.grows.lists grow.growsImage.lists)
          fun child member after afterImage grow' => ?_
        rw [here.slotChildren_eq grow.grows.lists] at member
        have below : child ∈ tree.children ref := List.mem_flatMap.2 ⟨slot, inside, member⟩
        have grow := grow.trans grow'
        exact ih (grow.ends (ends.2 child below)) (grow.ends (ends'.2 child below))
      refine .get_bind (copies.bind fun after afterImage slots slots' grow twins => ?_)
      exact allocSlots_tracks (mirrors.kind ref).skeleton twins

/-- Copying a node and everything below it. -/
theorem duplicate_tracks (grounded : tree.Grounded ref) :
    Edit.Tracks move (duplicate ref) (duplicate (ref.map move)) tree image (Twins move True) :=
  .given fun mirrors => .get_bind
    (duplicateWithin_tracks grounded.ends (grounded.ends.mono (Nat.succ_le_succ mirrors.size)))

/-- What two rules say of corresponding nodes: both that they are rebuilt, or nodes that stand for
them. -/
def VerdictTwins (move : Nat → Nat) (tree image : Tree) : Verdict → Verdict → Prop
  | .rebuild, .rebuild => True
  | .become replacement, .become replacement' => Twins move True tree image replacement replacement'
  | _, _ => False

/-- Counted edits of a tree and of an image of it lead to a tree and an image of it and to the same
count. -/
def Counted.Tracks {α β : Type} (move : Nat → Nat) (edit : Counted α) (edit' : Counted β)
    (tree image : Tree)
    (post : Tree → Tree → α → β → Prop) : Prop :=
  ∀ count, Edit.Tracks move (edit count) (edit' count) tree image
    fun after afterImage result result' =>
    result'.2 = result.2 ∧ post after afterImage result.1 result'.1

namespace Counted.Tracks

variable {α β γ δ : Type} {edit : Counted α} {edit' : Counted β}
  {post post' : Tree → Tree → α → β → Prop}

theorem pure {value : α} {value' : β}
    (posted : tree.Mirrors move image → post tree image value value') :
    Counted.Tracks move (Pure.pure value) (Pure.pure value') tree image post :=
  fun _ => .pure fun mirrors => ⟨rfl, posted mirrors⟩

theorem bind {next : α → Counted γ} {next' : β → Counted δ} {post' : Tree → Tree → γ → δ → Prop}
    (first : Counted.Tracks move edit edit' tree image post)
    (others : ∀ after afterImage value value', GrowAlike move tree image after afterImage →
      post after afterImage value value' →
        Counted.Tracks move (next value) (next' value') after afterImage post') :
    Counted.Tracks move (edit >>= next) (edit' >>= next') tree image post' := by
  intro count mirrors
  obtain ⟨grow, same, posted⟩ := first count mirrors
  obtain ⟨grow', posted'⟩ := others _ _ _ _ grow posted _ grow.mirrors
  have unfolded : (edit' >>= next') count image
      = next' (edit' count image).1.1 (edit count tree).1.2 (edit' count image).2 := same ▸ rfl
  rw [unfolded]
  exact ⟨grow.trans grow', posted'⟩

theorem lift {edit : Edit α} {edit' : Edit β}
    (tracks : Edit.Tracks move edit edit' tree image post) :
    Counted.Tracks move (liftM edit) (liftM edit') tree image post :=
  fun _ mirrors => ⟨(tracks mirrors).1, rfl, (tracks mirrors).2⟩

theorem given (tracks : tree.Mirrors move image → Counted.Tracks move edit edit' tree image post) :
    Counted.Tracks move edit edit' tree image post :=
    fun count mirrors => tracks mirrors count mirrors

theorem get_bind {next : Tree → Counted α} {next' : Tree → Counted β}
    (tracks : Counted.Tracks move (next tree) (next' image) tree image post) :
    Counted.Tracks move (getThe Tree >>= next) (getThe Tree >>= next') tree image post := tracks

theorem count_bind {next : Nat → Counted α} {next' : Nat → Counted β}
    (tracks : ∀ count, Counted.Tracks move (next count) (next' count) tree image post) :
    Counted.Tracks move (getThe Nat >>= next) (getThe Nat >>= next') tree image post :=
    fun count => tracks count count

/-- What holds of the results for each element of two lists, and lasts, holds of all; and where each
element stays as it is in both lists or in none, so do the lists. There are as many results. -/
theorem mapM {visit : α → Counted α} {visit' : β → Counted β} {items : List α} {items' : List β}
    (lasting : ∀ before beforeImage after afterImage value value',
      GrowAlike move before beforeImage after afterImage →
      post before beforeImage value value' → post after afterImage value value')
    (each : List.Forall₂
      (fun item item' => ∀ middle middleImage, GrowAlike move tree image middle middleImage →
      Counted.Tracks move (visit item) (visit' item') middle middleImage
        fun after afterImage value value' =>
        post after afterImage value value' ∧ (value' = item' ↔ value = item)) items items') :
    Counted.Tracks move (items.mapM visit) (items'.mapM visit') tree image
    fun after afterImage values values' =>
      List.Forall₂ (post after afterImage) values values' ∧ (values' = items' ↔ values = items) ∧
        values.length = items.length := by
  induction items generalizing items' tree image with
  | nil =>
    obtain rfl := List.forall₂_nil_left_iff.1 each
    exact .pure fun _ => ⟨.nil, by simp, rfl⟩
  | cons item items ih =>
    obtain ⟨item', items', here, others, rfl⟩ := List.forall₂_cons_left_iff.1 each
    rw [List.mapM_cons, List.mapM_cons]
    refine .given fun mirrors => (here tree image (.refl mirrors)).bind
      fun middle middleImage value value' grow ⟨posted, same⟩ => ?_
    refine .bind (ih (others.imp fun item item' tracks after afterImage grow' =>
      tracks after afterImage (grow.trans grow')))
      fun after afterImage values values' grow' ⟨posteds, sames, length⟩ => .pure fun _ => ?_
    refine ⟨.cons (lasting _ _ _ _ _ _ grow' posted) posteds, ?_, congrArg Nat.succ length⟩
    rw [List.cons.injEq, List.cons.injEq, same, sames]

end Counted.Tracks

/-- What a visit comes to stands for the node that was visited in both trees or in none. -/
theorem Twins.unchanged {before beforeImage : Tree} (mirrors : before.Mirrors move beforeImage)
    {new new' : Ref}
    (twins : Twins move True tree image new new') : new' = ref.map move ↔ new = ref := by
  rw [twins.1, mirrors.map_inj]

/-- Visiting a child position, of which the parts are visited alike. -/
theorem visitSlot_tracks {visit visit' : Ref → Counted Ref}
    (twins : SlotTwins move tree image slot slot') (visits : ∀ child ∈ tree.slotChildren slot,
      ∀ after afterImage, GrowAlike move tree image after afterImage → Counted.Tracks move
        (visit child) (visit' (child.map move)) after afterImage (Twins move True)) :
    Counted.Tracks move (visitSlot visit slot) (visitSlot visit' slot') tree image
    fun after afterImage new new' =>
      SlotTwins move after afterImage new new' ∧ (new' = slot' ↔ new = slot) := by
  refine .given fun mirrors => ?_
  cases slot with
  | one child =>
    obtain rfl := mirrorsSlot_one_iff.1 twins.1
    cases child with
    | none => exact .pure fun _ => ⟨.absent, by simp⟩
    | some number =>
      refine (visits _ (.head _) _ _ (.refl mirrors)).bind fun _ _ _ _ _ found => .pure fun _ =>
        ⟨.one found, ?_⟩
      rw [Slot.one.injEq, Slot.one.injEq, Twins.unchanged mirrors found]
  | many range =>
    obtain ⟨range', rfl, lists⟩ := mirrorsSlot_many_iff.1 twins.1
    have all : Counted.Tracks move ((tree.items range).mapM visit)
        ((image.items range').mapM visit') tree image
        fun after afterImage visited visited' =>
          List.Forall₂ (Twins move True after afterImage) visited visited' ∧
          (visited' = image.items range' ↔ visited = tree.items range) ∧
          visited.length = (tree.items range).length := by
      refine .mapM (fun _ _ _ _ _ _ grow twins => twins.grow grow) ?_
      rw [lists.items, List.forall₂_map_right_iff, List.forall₂_same]
      refine fun child member middle middleImage grow count =>
        (visits child member middle middleImage grow count).mono ?_
      exact fun _ _ _ _ _ ⟨same, found⟩ => ⟨same, found, Twins.unchanged mirrors found⟩
    refine .get_bind
      (all.bind fun after afterImage visited visited' grow ⟨found, same, length⟩ => ?_)
    by_cases unchanged : visited = tree.items range
    · rw [if_pos unchanged, if_pos (same.2 unchanged)]
      exact .pure fun _ => ⟨SlotTwins.grow twins grow, by simp⟩
    · rw [if_neg unchanged, if_neg (mt same.1 unchanged)]
      obtain ⟨rfl, grounded⟩ := Twins.list found
      refine .bind (.lift (allocList_tracks visited))
        fun _ _ new new' grow' ⟨⟨lists', items⟩, isNew, isNew'⟩ => .pure fun _ => ⟨.many lists'
        fun child member => grow'.grounded (grounded trivial child (items ▸ member)), ?_⟩
      have differ :=
        range_ne lists.stored (by simpa using grow.grows.lists.length_le) length unchanged
      have differ' := range_ne lists.storedImage (by simpa using grow.growsImage.lists.length_le)
        (by rw [lists.items, List.length_map, List.length_map, length]) (mt same.1 unchanged)
      rw [List.length_map] at differ'
      simp only [Slot.many.injEq, isNew, isNew', iff_of_false differ' differ]

/-- Rebuilding a node, whose children are visited alike. -/
theorem rebuild_tracks {visit visit' : Ref → Counted Ref} (grounded : tree.Grounded ref)
    (visits : ∀ child ∈ tree.children ref, ∀ after afterImage,
      GrowAlike move tree image after afterImage → Counted.Tracks move (visit child)
        (visit' (child.map move)) after afterImage (Twins move True)) :
    Counted.Tracks move (rebuild visit ref) (rebuild visit' (ref.map move)) tree image
    (Twins move True) := by
  refine .given fun mirrors => ?_
  have all : Counted.Tracks move ((tree.kind ref).slots.mapM (visitSlot visit))
      ((image.kind (ref.map move)).slots.mapM (visitSlot visit')) tree image
        fun after afterImage new new' => List.Forall₂ (SlotTwins move after afterImage) new new' ∧
          (new' = (image.kind (ref.map move)).slots ↔ new = (tree.kind ref).slots) ∧
          new.length = (tree.kind ref).slots.length := by
    refine .mapM (fun _ _ _ _ _ _ grow twins => twins.grow grow) ?_
    refine forall₂_of_mem (mirrors.kind ref).slots
      fun slot slot' inside here middle middleImage grow => ?_
    have below (child : Ref) (member : child ∈ tree.slotChildren slot) :
        child ∈ tree.children ref := List.mem_flatMap.2 ⟨slot, inside, member⟩
    have twins : SlotTwins move tree image slot slot' :=
      ⟨here, fun child member => grounded.child (below child member)⟩
    refine visitSlot_tracks (twins.grow grow) fun child member after afterImage grow' => ?_
    rw [here.slotChildren_eq grow.grows.lists] at member
    exact visits child (below child member) after afterImage (grow.trans grow')
  refine .get_bind (all.bind fun after afterImage slots slots' grow ⟨twins, same, _⟩ => ?_)
  change Counted.Tracks move (if slots = (tree.kind ref).slots then _ else _)
    (if slots' = (image.kind (ref.map move)).slots then _ else _) after afterImage _
  by_cases unchanged : slots = (tree.kind ref).slots
  · rw [if_pos unchanged, if_pos (same.2 unchanged)]
    exact .pure fun _ => ⟨rfl, fun _ => grow.grounded grounded⟩
  · rw [if_neg unchanged, if_neg (mt same.1 unchanged)]
    exact .lift (allocSlots_tracks (mirrors.kind ref).skeleton twins)

/-- Two rules say alike of corresponding nodes, however the trees that the nodes are from have
grown. -/
def Rule.Alike (move : Nat → Nat) (rule rule' : Rule) (tree image : Tree) : Prop :=
  ∀ after afterImage count ref, GrowAlike move tree image after afterImage → tree.Grounded ref →
    Edit.Tracks move (rule count ref) (rule' count (ref.map move)) after afterImage
      (VerdictTwins move)

theorem foldWithin_tracks {rule rule' : Rule} (alike : Rule.Alike move rule rule' tree image)
    {bound' : Nat}
    (grounded : tree.Grounded ref) (ends : tree.Ends bound ref) (ends' : tree.Ends bound' ref)
    {after afterImage : Tree}
    (grow : GrowAlike move tree image after afterImage) :
    Counted.Tracks move (foldWithin rule bound ref)
    (foldWithin rule' bound' (ref.map move)) after afterImage (Twins move True) := by
  induction bound generalizing bound' ref after afterImage with
  | zero => exact ends.elim
  | succ bound ih =>
    cases bound' with
    | zero => exact ends'.elim
    | succ bound' =>
      rw [foldWithin, foldWithin]
      refine .count_bind fun count => .bind (.lift (alike after afterImage count ref grow grounded))
        fun middle middleImage verdict verdict' grow' twins => ?_
      have grow := grow.trans grow'
      cases verdict with
      | rebuild =>
        cases verdict' with
        | rebuild =>
          refine rebuild_tracks (grow.grounded grounded) fun child member after afterImage grow' =>
            ?_
          have inside : child ∈ tree.children ref := by
            cases ref with
            | none => cases member
            | some number =>
              rwa [grow.mirrored.children_of_grows grow.grows (ends.1 number rfl)] at member
          exact ih (grounded.child inside) (ends.2 child inside) (ends'.2 child inside)
            (grow.trans grow')
        | _ => exact twins.elim
      | become replacement =>
        cases verdict' with
        | become replacement' => exact fun count => .pure fun _ => ⟨rfl, twins⟩
        | _ => exact twins.elim
      | follow other => cases verdict' <;> exact twins.elim

/-- Folds by rules that say alike give corresponding nodes, and replace as many. -/
theorem fold_tracks {rule rule' : Rule} (alike : Rule.Alike move rule rule' tree image)
    (grounded : tree.Grounded ref) :
    Edit.Tracks move (fold rule ref) (fold rule' (ref.map move)) tree image
      fun after afterImage folded folded' => folded'.2 = folded.2 ∧
        Twins move True after afterImage folded.1 folded'.1 :=
  .given fun mirrors => .get_bind (foldWithin_tracks alike grounded grounded.ends
    (grounded.ends.mono (Nat.succ_le_succ mirrors.size)) (.refl mirrors) 0)

end

end Tree

end Refactory
