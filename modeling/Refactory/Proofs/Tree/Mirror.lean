import Mathlib
import Refactory.Proofs.Tree.Types

/-!
# Trees that mirror one another

A tree is mirrored in an image when the image has each of its nodes under another number: of the
same kind, with the same parent and the same children under their other numbers (`Tree.Mirrors`).
The image may hold more nodes, to which nothing leads from the mirrored ones, and other lists; spans
and versions play no part. Nodes that are added to both get corresponding numbers.

Whatever looks at a node finds in the image what it finds in the tree. Walks are bounded by the
number of nodes, which may differ, so they are compared where every way ends within the bound
(`Tree.Ends`, `Tree.Tops`).
-/
namespace Refactory

variable {slot : NodeSlot} {kind' : NodeKind} {term : Outline}

namespace Kind

variable {one many one' many' : Type}

/-- The kind with `f` of each single child and with `g` of each list, which is told the position of
the list. -/
def bimap (f : one → one') (g : Nat → many → many') : Kind one many → Kind one' many'
  | unit members => unit (g 0 members)
  | method result name params body => method (f result) name (g 1 params) (f body)
  | param type name => param (f type) name
  | typeRef name arguments rank => typeRef name (g 0 arguments) rank
  | block statements => block (g 0 statements)
  | localDecl type declarators => localDecl (f type) (g 1 declarators)
  | declarator name value => declarator name (f value)
  | exprStmt expression => exprStmt (f expression)
  | returnStmt value => returnStmt (f value)
  | ifStmt condition thenBranch elseBranch => ifStmt (f condition) (f thenBranch) (f elseBranch)
  | whileLoop condition body => whileLoop (f condition) (f body)
  | forLoop declaration initializers condition incrementors body =>
    forLoop (f declaration) (g 1 initializers) (f condition) (g 3 incrementors) (f body)
  | forEach type name collection body => forEach (f type) name (f collection) (f body)
  | int value => int value
  | str contents => str contents
  | bool value => bool value
  | null => null
  | ident name => ident name
  | member receiver name conditional => member (f receiver) name conditional
  | invoke callee arguments => invoke (f callee) (g 1 arguments)
  | argument modifier value => argument modifier (f value)
  | index receiver arguments => index (f receiver) (g 1 arguments)
  | lambda params body parenthesized => lambda (g 0 params) (f body) parenthesized
  | binary op left right => binary op (f left) (f right)
  | unary op operand => unary op (f operand)
  | assign op target value => assign op (f target) (f value)
  | paren inner => paren (f inner)

variable (f : one → one') (g : Nat → many → many') (kind : Kind one many)

@[simp] theorem isStatement_bimap : (kind.bimap f g).isStatement = kind.isStatement := by
  cases kind <;> rfl

end Kind

namespace Tree

open Term

section

variable (move : Nat → Nat) (tree image : Tree)

/-- A list of the image has the entries of a list of the tree, under their other numbers. -/
structure MirrorsRange (range range' : Range) : Prop where
  /-- The entries. -/
  items : image.items range' = (tree.items range).map (Option.map move)
  /-- As many are announced. -/
  length : range'.length = range.length
  /-- All of them are stored in the tree. -/
  stored : range.start + range.length ≤ tree.lists.size
  /-- All of them are stored in the image. -/
  storedImage : range'.start + range'.length ≤ image.lists.size

/-- A child position of the image holds what a child position of the tree holds. -/
def MirrorsSlot : NodeSlot → NodeSlot → Prop
  | .one child, .one child' => child' = child.map move
  | .many range, .many range' => MirrorsRange move tree image range range'
  | _, _ => False

/-- A kind of the image is a kind of the tree with the children under their other numbers. -/
structure MirrorsKind (kind kind' : NodeKind) : Prop where
  /-- The child positions correspond. -/
  slots : List.Forall₂ (MirrorsSlot move tree image) kind.slots kind'.slots
  /-- All else is the same. -/
  skeleton : kind'.skeleton = kind.skeleton

/-- The image has the nodes of the tree under other numbers. -/
structure Mirrors : Prop where
  /-- Different nodes get different numbers. -/
  injective : Function.Injective move
  /-- Nodes that are added get the numbers of the nodes that are added to the image. -/
  fresh : ∀ count, move (tree.size + count) = image.size + count
  /-- The image has at least as many nodes. -/
  size : tree.size ≤ image.size
  /-- Each node is of the same kind. -/
  kind : ∀ ref, MirrorsKind move tree image (tree.kind ref) (image.kind (ref.map move))
  /-- Each node has the same parent. -/
  parent : ∀ ref, image.parent (ref.map move) = (tree.parent ref).map move
  /-- The roots correspond. -/
  root : image.root = tree.root.map move
  /-- The tree has an entry for the parent of every node. -/
  aligned : tree.parents.size = tree.size
  /-- So does the image. -/
  alignedImage : image.parents.size = image.size

end

/-- Every way down from a node leads through stored nodes and ends within so many nodes. -/
def Ends (tree : Tree) : Nat → Ref → Prop
  | 0, _ => False
  | bound + 1, ref => (∀ number ∈ ref, number < tree.size) ∧
    ∀ child ∈ tree.children ref, tree.Ends bound child

/-- Every way down from a node, if there is one, ends before a walk gives up. -/
def Grounded (tree : Tree) (ref : Ref) : Prop := ref ≠ none → tree.Ends tree.depthBound ref

/-- The way up from a node ends within so many nodes. -/
def Tops (tree : Tree) : Nat → Ref → Prop
  | 0, _ => False
  | bound + 1, ref => tree.parent ref ≠ none → tree.Tops bound (tree.parent ref)

section

variable {move : Nat → Nat} {tree image : Tree}

theorem mirrorsSlot_one_iff {child : Ref} :
    MirrorsSlot move tree image (.one child) slot ↔ slot = .one (child.map move) := by
  cases slot <;> simp [MirrorsSlot]

theorem mirrorsSlot_many_iff {range : Range} :
    MirrorsSlot move tree image (.many range) slot ↔
      ∃ range', slot = .many range' ∧ MirrorsRange move tree image range range' := by
  cases slot <;> simp [MirrorsSlot]

/-- A kind of the image by way of the kind of the tree, with the lists that take the place of its
lists. -/
theorem MirrorsKind.exists_bimap {kind : NodeKind}
    (mirrors : MirrorsKind move tree image kind kind') :
    ∃ g : Nat → Range → Range, kind' = kind.bimap (Option.map move) g ∧ ∀ position range,
      kind.slots[position]? = some (.many range) →
      MirrorsRange move tree image range (g position range) := by
  have whole := Kind.eq_withSlots_of_skeleton none .empty mirrors.skeleton.symm
  have slots := mirrors.slots
  generalize kind'.slots = slots' at whole slots
  have holds {position : Nat} {slot : NodeSlot} (inside : kind.slots[position]? = some slot) :
      ∃ slot', slots'[position]? = some slot' ∧ MirrorsSlot move tree image slot slot' := by
    obtain ⟨bound, rfl⟩ := List.getElem?_eq_some_iff.1 inside
    exact ⟨_, List.getElem?_eq_getElem (slots.length_eq ▸ bound), slots.get bound _⟩
  have one {position : Nat} {child : Ref} (inside : kind.slots[position]? = some (.one child)) :
      Slot.oneD none slots'[position]? = child.map move := by
    obtain ⟨_, found, here⟩ := holds inside
    rw [found, mirrorsSlot_one_iff.1 here, Slot.oneD]
  refine ⟨fun position _ =>
    Slot.manyD .empty slots'[position]?, ?_, fun position range inside => ?_⟩
  · rw [whole]
    cases kind <;> simp only [Kind.withSlots, Kind.bimap] <;> congr <;> exact one rfl
  · obtain ⟨_, found, here⟩ := holds inside
    obtain ⟨range', rfl, mirrorsRange⟩ := mirrorsSlot_many_iff.1 here
    simp only [found]
    exact mirrorsRange

/-- The children of a child position. -/
theorem MirrorsSlot.children {slot' : NodeSlot} (mirrors : MirrorsSlot move tree image slot slot') :
    image.slotChildren slot' = (tree.slotChildren slot).map (Option.map move) := by
  cases slot with
  | one child =>
    obtain rfl := mirrorsSlot_one_iff.1 mirrors
    cases child <;> rfl
  | many range =>
    obtain ⟨range', rfl, mirrors⟩ := mirrorsSlot_many_iff.1 mirrors
    exact mirrors.items

/-- The children of a kind. -/
theorem MirrorsKind.children {kind : NodeKind} (mirrors : MirrorsKind move tree image kind kind') :
    image.kindChildren kind' = (tree.kindChildren kind).map (Option.map move) := by
  have slots := mirrors.slots
  rw [kindChildren, kindChildren]
  generalize kind.slots = slots, kind'.slots = slots' at slots
  induction slots with
  | nil => rfl
  | cons here _ ih => rw [List.flatMap_cons, List.flatMap_cons, here.children, ih, List.map_append]

namespace Ends

variable {bound bound' : Nat} {ref : Ref}

/-- The ways down end within more nodes, too. -/
theorem mono (ends : tree.Ends bound ref) (more : bound ≤ bound') : tree.Ends bound' ref := by
  induction bound generalizing bound' ref with
  | zero => exact ends.elim
  | succ bound ih =>
    obtain ⟨bound', rfl⟩ := Nat.exists_eq_add_of_le' (Nat.zero_lt_of_lt more)
    exact ⟨ends.1, fun child member => ih (ends.2 child member) (Nat.le_of_succ_le_succ more)⟩

/-- The ways down from a child are shorter. -/
theorem child {child : Ref} (ends : tree.Ends bound ref) (member : child ∈ tree.children ref) :
    tree.Ends bound child := by
  cases bound with
  | zero => exact ends.elim
  | succ bound => exact (ends.2 child member).mono (Nat.le_succ _)

/-- The ways down from a single child are shorter, if it is present. -/
theorem one {child : Ref} (ends : tree.Ends (bound + 1) ref)
    (inside : .one child ∈ (tree.kind ref).slots)
    (present : child ≠ none) : tree.Ends bound child := by
  refine ends.2 child (List.mem_flatMap.2 ⟨_, inside, ?_⟩)
  cases child with
  | none => exact absurd rfl present
  | some number => exact .head _

end Ends

namespace Grounded

variable {ref : Ref}

/-- What is at a single child position of a node has less below it. -/
theorem one {child : Ref} (grounded : tree.Grounded ref)
    (inside : .one child ∈ (tree.kind ref).slots) :
    tree.Grounded child := by
  intro present
  cases ref with
  | none => cases inside
  | some number => exact (Ends.one (grounded nofun) inside present).mono (Nat.le_succ _)

theorem child {child : Ref} (grounded : tree.Grounded ref) (member : child ∈ tree.children ref) :
    tree.Grounded child := by
  intro _
  cases ref with
  | none => cases member
  | some number => exact (grounded nofun).child member

/-- The entries of a list of a node have less below them. -/
theorem item {child : Ref} {range : Range} (grounded : tree.Grounded ref)
    (inside : .many range ∈ (tree.kind ref).slots)
    (member : child ∈ tree.items range) : tree.Grounded child :=
  grounded.child (List.mem_flatMap.2 ⟨_, inside, member⟩)

end Grounded

/-- Two walks down find the same, the one in the tree and the other in its image, if they do
wherever they find the same below. -/
theorem walks_agree {bound bound' : Nat} {ref : Ref} {α : Type} {f g : Nat → Ref → α} {h : α → α}
    (absent : ∀ bound bound', g bound' none = h (f bound none))
    (step : ∀ bound bound' ref, tree.Ends (bound + 1) ref → tree.Ends (bound' + 1) ref →
      (∀ child, (child ≠ none → tree.Ends bound child ∧ tree.Ends bound' child) →
        g bound' (child.map move) = h (f bound child)) →
      g (bound' + 1) (ref.map move) = h (f (bound + 1) ref))
    (ends : ref ≠ none → tree.Ends bound ref) (ends' : ref ≠ none → tree.Ends bound' ref) :
    g bound' (ref.map move) = h (f bound ref) := by
  induction bound generalizing bound' ref with
  | zero =>
    cases ref with
    | none => exact absent _ _
    | some number => exact (ends nofun).elim
  | succ bound ih =>
    cases ref with
    | none => exact absent _ _
    | some number =>
      cases bound' with
      | zero => exact (ends' nofun).elim
      | succ bound' =>
        exact step bound bound' _ (ends nofun) (ends' nofun) fun child below =>
          ih (fun present => (below present).1) fun present => (below present).2

/-- The way up ends within more nodes, too. -/
theorem Tops.mono {bound bound' : Nat} {ref : Ref} (tops : tree.Tops bound ref)
    (more : bound ≤ bound') :
    tree.Tops bound' ref := by
  induction bound generalizing bound' ref with
  | zero => exact tops.elim
  | succ bound ih =>
    obtain ⟨bound', rfl⟩ := Nat.exists_eq_add_of_le' (Nat.zero_lt_of_lt more)
    exact fun present => ih (tops present) (Nat.le_of_succ_le_succ more)

namespace Mirrors

variable (mirrors : tree.Mirrors move image) {bound bound' : Nat} {ref : Ref}

include mirrors

/-- Different nodes stay different. -/
theorem map_inj {left right : Ref} : left.map move = right.map move ↔ left = right :=
  (Option.map_injective mirrors.injective).eq_iff

/-- Lists of different nodes stay different. -/
theorem map_list_inj {left right : List Ref} :
    left.map (Option.map move) = right.map (Option.map move) ↔ left = right :=
  (List.map_injective_iff.2 (Option.map_injective mirrors.injective)).eq_iff

theorem map_beq (left right : Ref) : (left.map move == right.map move) = (left == right) := by
  rw [Bool.eq_iff_iff, beq_iff_eq, beq_iff_eq, mirrors.map_inj]

theorem map_contains (items : List Ref) (ref : Ref) :
    (items.map (Option.map move)).contains (ref.map move) = items.contains ref := by
  rw [Bool.eq_iff_iff, List.contains_iff_mem, List.contains_iff_mem,
    List.mem_map_of_injective (Option.map_injective mirrors.injective)]

/-- A node is stored in the tree when the node under its other number is in the image. -/
theorem lt_size_iff (number : Nat) : move number < image.size ↔ number < tree.size := by
  constructor
  · intro inside
    by_contra outside
    obtain ⟨count, rfl⟩ := Nat.exists_eq_add_of_le (Nat.le_of_not_lt outside)
    rw [mirrors.fresh] at inside
    omega
  · intro inside
    by_contra outside
    obtain ⟨count, same⟩ := Nat.exists_eq_add_of_le (Nat.le_of_not_lt outside)
    rw [← mirrors.fresh] at same
    have := mirrors.injective same
    omega

/-- The kind of a node of the image by way of the kind of the node. -/
theorem exists_kind (ref : Ref) : ∃ g : Nat → Range → Range,
    image.kind (ref.map move) = (tree.kind ref).bimap (Option.map move) g ∧ ∀ position range,
      (tree.kind ref).slots[position]? = some (.many range) →
        MirrorsRange move tree image range (g position range) := (mirrors.kind ref).exists_bimap

/-- The children of a node. -/
theorem children
    (ref : Ref) : image.children (ref.map move) = (tree.children ref).map (Option.map move) :=
  (mirrors.kind ref).children

/-- The nodes in pre-order. -/
theorem preorder (ends : tree.Ends bound ref) (ends' : tree.Ends bound' ref) :
    image.preorder bound' (ref.map move) = (tree.preorder bound ref).map (Option.map move) := by
  induction bound generalizing bound' ref with
  | zero => exact ends.elim
  | succ bound ih =>
    cases bound' with
    | zero => exact ends'.elim
    | succ bound' =>
      rw [Tree.preorder, Tree.preorder, mirrors.children, List.flatMap_map, List.map_cons,
        List.map_flatMap]
      exact congrArg (_ :: ·)
        (List.flatMap_congr fun child member => ih (ends.2 child member) (ends'.2 child member))

/-- A walk in the image, which is no smaller, does not give up before a walk in the tree. -/
theorem ends_of_grounded (grounded : tree.Grounded ref)
    (present : ref ≠ none) : tree.Ends image.depthBound ref :=
  (grounded present).mono (Nat.succ_le_succ mirrors.size)

/-- A node and everything below it. -/
theorem descendants (grounded : tree.Grounded ref) :
    image.descendants (ref.map move) = (tree.descendants ref).map (Option.map move) := by
  cases ref with
  | none => rfl
  | some number =>
    rw [descendants_some, Option.map_some, descendants_some]
    exact mirrors.preorder (grounded nofun) (mirrors.ends_of_grounded grounded nofun)

/-- The nodes of the tree. -/
theorem attached (grounded : tree.Grounded tree.root) :
    image.attached = tree.attached.map (Option.map move) := by
  rw [Tree.attached, mirrors.root]
  exact mirrors.descendants grounded

/-- The way up from a node. -/
theorem ancestorsWithin (tops : tree.Tops bound ref) (tops' : tree.Tops bound' ref) :
    image.ancestorsWithin bound' (ref.map move) =
    (tree.ancestorsWithin bound ref).map (Option.map move) := by
  induction bound generalizing bound' ref with
  | zero => exact tops.elim
  | succ bound ih =>
    cases bound' with
    | zero => exact tops'.elim
    | succ bound' =>
      rw [Tree.ancestorsWithin, Tree.ancestorsWithin, mirrors.parent]
      rw [Tops] at tops tops'
      cases above : tree.parent ref with
      | none => rfl
      | some parent =>
        rw [above] at tops tops'
        have present : some parent ≠ none := Option.some_ne_none parent
        exact congrArg _ (ih (tops present) (tops' present))

theorem tops_depthBound (tops : tree.Tops tree.depthBound ref) : tree.Tops image.depthBound ref :=
  tops.mono (Nat.succ_le_succ mirrors.size)

/-- The ancestors of a node. -/
theorem ancestors (tops : tree.Tops tree.depthBound ref) :
    image.ancestors (ref.map move) = (tree.ancestors ref).map (Option.map move) :=
  mirrors.ancestorsWithin tops (mirrors.tops_depthBound tops)

/-- A node and its ancestors. -/
theorem lineage (tops : tree.Tops tree.depthBound ref) :
    image.lineage (ref.map move) = (tree.lineage ref).map (Option.map move) := by
  rw [Tree.lineage, Tree.lineage, mirrors.ancestors tops, List.map_cons]

theorem isWithin (tops : tree.Tops tree.depthBound ref) (ancestor : Ref) :
    image.isWithin (ref.map move) (ancestor.map move) = tree.isWithin ref ancestor := by
  rw [Tree.isWithin, Tree.isWithin, mirrors.ancestors tops, mirrors.map_beq, List.any_map]
  congr 2
  funext other
  exact mirrors.map_beq other ancestor

end Mirrors

/-- A list that announces no more than it has is announced as it is. -/
theorem announced_of_stored {kind : NodeKind} (pick : Ref → Outline)
    (stored : ∀ range, .many range ∈ kind.slots → range.start + range.length ≤ tree.lists.size) :
    Tree.announced kind (kind.withSlots none [] (kind.slots.map (tree.content pick)))
      = kind.withSlots none [] (kind.slots.map (tree.content pick)) := by
  have length (range : Range) (inside : .many range ∈ kind.slots) :
      ((tree.items range).map pick).length = range.length := by
    rw [List.length_map, length_items (stored range inside)]
  cases kind with
  | typeRef name range rank =>
    have length := length range (.head _)
    simp [Kind.withSlots, Kind.slots, content, Slot.manyD, announced] at *
    split <;> simp_all [Range.isEmpty]
  | forLoop declaration initializers condition range body =>
    have length := length range (by simp [Kind.slots])
    simp [Kind.withSlots, Kind.slots, content, Slot.manyD, announced] at *
    split <;> simp_all [Range.isEmpty]
  | lambda range body parenthesized =>
    have length := length range (.head _)
    simp [Kind.withSlots, Kind.slots, content, Slot.manyD, announced] at *
    simp_all
  | _ => rfl

/-- The content of a position of the image, where this holds the same below its children. -/
theorem MirrorsSlot.content {β : Type} {slot' : NodeSlot}
    (mirrors : MirrorsSlot move tree image slot slot')
    {pick pick' : Ref → Outline} {f f' : Outline → Term β}
    (same : ∀ child ∈ tree.slotChildren slot, f' (pick' (child.map move)) = f (pick child)) :
    mapSlot f' (image.content pick' slot') = mapSlot f (tree.content pick slot) := by
  cases slot with
  | one child =>
    obtain rfl := mirrorsSlot_one_iff.1 mirrors
    cases child with
    | none => rfl
    | some number => exact congrArg (fun child => Slot.one (some child)) (same _ (.head _))
  | many range =>
    obtain ⟨range', rfl, mirrors⟩ := mirrorsSlot_many_iff.1 mirrors
    simp only [Tree.content, mapSlot, mirrors.items, List.map_map, Slot.many.injEq,
      List.map_inj_left]
    exact same

theorem alike_content (pick : Ref → Outline) (slots : List NodeSlot) :
    List.Forall₂ Slot.Alike slots (slots.map (tree.content pick)) := by
  rw [List.forall₂_map_right_iff, List.forall₂_same]
  rintro ((_ | child) | range) _ <;> constructor

/-- A node of an outline, with `f` of what is below it. -/
theorem mapChildren_content {β : Type} (f : Outline → Term β) (kind : NodeKind)
    (pick : Ref → Outline) :
    mapChildren f (kind.withSlots none [] (kind.slots.map (tree.content pick)))
      = kind.skeleton.withSlots none [] ((kind.slots.map (tree.content pick)).map (mapSlot f)) := by
  have slots : (kind.withSlots none [] (kind.slots.map (tree.content pick))).slots
    = kind.slots.map (tree.content pick) :=
    Kind.slots_withSlots kind (alike_content pick kind.slots)
  rw [mapChildren, slots, ← Kind.withSlots_skeleton, Kind.skeleton_withSlots]
  congr 2

/-- The lists of a kind that is mirrored are stored. -/
theorem MirrorsKind.stored {kind : NodeKind} (mirrors : MirrorsKind move tree image kind kind') :
    (∀ range, .many range ∈ kind.slots → range.start + range.length ≤ tree.lists.size) ∧
      ∀ range, .many range ∈ kind'.slots → range.start + range.length ≤ image.lists.size := by
  constructor
  · intro range inside
    obtain ⟨slot, -, here⟩ := exists_of_mem_right mirrors.slots.flip inside
    obtain ⟨_, -, lists⟩ := mirrorsSlot_many_iff.1 here
    exact lists.stored
  · intro range inside
    obtain ⟨slot, -, here⟩ := exists_of_mem_right mirrors.slots inside
    cases slot with
    | one child => cases here
    | many range => exact MirrorsRange.storedImage here

/-- The outline of a node, with the other numbers in its notes. -/
theorem Mirrors.outlineWithin (mirrors : tree.Mirrors move image) {bound bound' : Nat} {ref : Ref}
    (ends : tree.Ends bound ref) (ends' : tree.Ends bound' ref) :
    (image.outlineWithin bound' (ref.map move)).map Place.ref
      = (tree.outlineWithin bound ref).map fun place => place.ref.map move := by
  induction bound generalizing bound' ref with
  | zero => exact ends.elim
  | succ bound ih =>
    cases bound' with
    | zero => exact ends'.elim
    | succ bound' =>
      have kinds := mirrors.kind ref
      have below := fun child member => ih (ends.2 child member) (ends'.2 child member)
      rw [outlineWithin_succ, outlineWithin_succ, announced_of_stored _ kinds.stored.1,
        announced_of_stored _ kinds.stored.2, map, map, mapForm_eq, mapForm_eq, mapChildren_content,
        mapChildren_content, kinds.skeleton]
      congr 2
      rw [Tree.children, kindChildren] at below
      have slots := kinds.slots
      generalize (tree.kind ref).slots = slots, (image.kind (ref.map move)).slots
        = slots' at slots below
      induction slots with
      | nil => rfl
      | cons here _ ih =>
        rw [List.flatMap_cons] at below
        simp only [List.map_cons]
        rw [ih fun child member => below child (List.mem_append_right _ member),
          here.content fun child member => below child (List.mem_append_left _ member)]

/-- The ways down from a term that is stored end at its parts. -/
theorem ends_of_shown (shown : term.All tree.Shows) {bound : Nat}
    (enough : term.subterms.length ≤ bound) : tree.Ends bound term.ref := by
  induction bound generalizing term with
  | zero =>
    rw [subterms_eq] at enough
    exact absurd enough (by simp)
  | succ bound ih =>
    obtain ⟨number, inside, place⟩ := shown.here.hasRef
    refine ⟨fun _ same => ?_, fun child member => ?_⟩
    · obtain rfl := Option.some.inj (place.symm.trans same)
      exact inside
    · rw [shown.here.children] at member
      obtain ⟨part, held, rfl⟩ := List.mem_map.1 member
      exact ih (shown.child held)
        (Nat.le_of_lt_succ (Nat.lt_of_lt_of_le (length_subterms_lt held) enough))

theorem Stands.ends (stands : tree.Stands term) : tree.Ends tree.depthBound term.ref :=
  ends_of_shown stands.shown (Nat.le_succ_of_le stands.length_le)

/-- The way up from a part of a term that stands leads through the parts around it. -/
theorem Stands.tops {part : Outline} (stands : tree.Stands term) {bound : Nat}
    (tops : tree.Tops bound term.ref) (within : part ∈ term.subterms) :
    tree.Tops (bound + term.subterms.length) part.ref := by
  induction term using Term.induction generalizing bound with
  | step place form ih =>
    rw [subterms_node] at within
    rcases List.mem_cons.1 within with rfl | within
    · exact tops.mono (Nat.le_add_right _ _)
    · obtain ⟨child, held, within⟩ := List.mem_flatMap.1 within
      have isChild : child ∈ (Term.node place form).children := held
      have shorter := length_subterms_lt isChild
      have above : tree.Tops (bound + 1) child.ref := by
        intro _
        rwa [stands.adopted.here child isChild]
      exact (ih child held (stands.subterm (child_mem_subterms isChild)) above within).mono
        (by omega)

end

end Tree

/-- A reference to a node of a term, or to none. -/
def Term.Covers (whole : Outline) (ref : Ref) : Prop := ref ≠ none → ref ∈ whole.refs

namespace Tree.IsProgram

open Term

variable {tree : Tree} {whole : Outline} (program : tree.IsProgram whole) {ref child : Ref}

include program

/-- The ways down from the nodes of a program end. -/
theorem grounded (covers : whole.Covers ref) : tree.Grounded ref := by
  intro present
  obtain ⟨part, within, rfl⟩ := mem_refs.1 (covers present)
  exact (program.stands.subterm within).ends

/-- So do the ways up. -/
theorem tops (covers : whole.Covers ref) : tree.Tops tree.depthBound ref := by
  cases ref with
  | none => exact fun present => absurd rfl present
  | some number =>
    obtain ⟨part, within, place⟩ := mem_refs.1 (covers nofun)
    have top : tree.Tops 1 whole.ref := by
      intro present
      rw [program.root] at present
      exact absurd program.top present
    rw [← place]
    refine (program.stands.tops top within).mono ?_
    have := program.stands.length_le
    simp only [depthBound]
    omega

theorem covers_child (covers : whole.Covers ref) (member : child ∈ tree.children ref) :
    whole.Covers child := by
  intro _
  cases ref with
  | none => cases member
  | some number =>
    obtain ⟨part, within, place⟩ := mem_refs.1 (covers nofun)
    rw [← place, (program.stands.shows within).children] at member
    obtain ⟨inner, held, rfl⟩ := List.mem_map.1 member
    exact mem_refs.2 ⟨inner, subterms_child within held, rfl⟩

theorem covers_parent (covers : whole.Covers ref) : whole.Covers (tree.parent ref) := by
  intro present
  cases ref with
  | none => exact absurd rfl present
  | some number => exact program.parent_mem (covers nofun) present

theorem covers_descendant (covers : whole.Covers ref) (member : child ∈ tree.descendants ref) :
    whole.Covers child := by
  intro _
  cases ref with
  | none => cases member
  | some number => exact program.descendants_subset (covers nofun) member

theorem covers_lineage (covers : whole.Covers ref) (member : child ∈ tree.lineage ref) :
    whole.Covers child := by
  intro present
  cases ref with
  | none =>
    obtain rfl := List.mem_singleton.1 member
    exact covers present
  | some number => exact program.lineage_subset (covers nofun) member

end Tree.IsProgram

end Refactory
