import Refactory.Proofs.Code.MirrorBuild

/-!
# Putting nodes into their places in mirrored trees

Giving corresponding nodes corresponding kinds, and putting nodes into the places of others, leaves
a tree and an image of it, and finds the place in both or in none (`Tree.Mirrors.editChild`). So a
change that comes upon no violation in the tree comes upon none in the image (`Change.Tracks`).
-/
namespace Refactory

namespace Tree

variable {move : Nat → Nat} {tree image : Tree}

namespace Mirrors

variable (mirrors : tree.Mirrors move image)

include mirrors

/-- Giving corresponding nodes corresponding kinds. -/
theorem setKind {kind kind' : NodeKind} (kinds : MirrorsKind move tree image kind kind')
    (ref : Ref) :
    (Tree.setKind ref kind tree).2.Mirrors move (Tree.setKind (ref.map move) kind' image).2 := by
  cases ref with
  | none => exact mirrors
  | some number =>
    by_cases inside : number < tree.nodes.size
    · have insideImage : move number < image.nodes.size := (mirrors.lt_size_iff number).2 inside
      have changed := mirrors.setNode kinds inside insideImage tree.nodes[number].span
        image.nodes[move number].span
      have adopted := changed.adopt (kinds.grow List.prefix_rfl List.prefix_rfl) (some number)
      simpa only [Tree.setKind, Option.map_some, inside, insideImage, dite_true] using adopted.touch
    · have outside : ¬move number < image.nodes.size := mt (mirrors.lt_size_iff number).1 inside
      simpa only [Tree.setKind, Option.map_some, inside, outside, dite_false] using mirrors

/-- Making corresponding nodes the roots. -/
theorem setRoot (root : Ref) :
    (Tree.setRoot root tree).2.Mirrors move (Tree.setRoot (root.map move) image).2 := by
  have rooted : { tree with root }.Mirrors move { image with root := root.map move } :=
    mirrors.of_nodes rfl rfl List.prefix_rfl List.prefix_rfl rfl rfl mirrors.parent rfl
  exact (rooted.setParent root none).touch

theorem dropLink (parent target : Ref) (replacements : List Ref) :
    (Tree.dropLink parent target replacements tree).Mirrors move (Tree.dropLink (parent.map move)
        (target.map move) (replacements.map (Option.map move)) image) := by
  rw [Tree.dropLink, Tree.dropLink, mirrors.map_contains, mirrors.parent, bne, bne, mirrors.map_beq]
  split
  · exact mirrors
  · exact mirrors.setParent target none

theorem map_substitute (target : Ref) (replacements items : List Ref) :
    substitute (target.map move) (replacements.map (Option.map move)) (items.map (Option.map move))
      = (substitute target replacements items).map (Option.map move) := by
  rw [substitute, substitute, List.flatMap_map, List.map_flatMap]
  refine List.flatMap_congr fun item _ => ?_
  by_cases here : item = target
  · rw [if_pos here, if_pos (mirrors.map_inj.2 here)]
  · rw [if_neg here, if_neg (mt mirrors.map_inj.1 here), List.map_singleton]

end Mirrors

/-- Whatever the ways down end from before, they end from after. -/
def Carries (before after : Tree) : Prop := ∀ ref, before.Grounded ref → after.Grounded ref

theorem Carries.refl (tree : Tree) : tree.Carries tree := fun _ => id

theorem Carries.trans {before middle after : Tree} (first : before.Carries middle)
    (second : middle.Carries after) :
    before.Carries after := fun ref grounded => second ref (first ref grounded)

theorem GrowAlike.carries {after afterImage : Tree}
    (grow : GrowAlike move tree image after afterImage) :
    tree.Carries after :=
  fun _ => grow.grounded

/-- A node that gets another kind has the children of that kind, and all others have the children
that they had. -/
theorem children_setKind (tree : Tree) (ref : Ref) (kind : NodeKind) (other : Ref) :
    (Tree.setKind ref kind tree).2.children other = tree.children other ∨
      other = ref ∧ (Tree.setKind ref kind tree).2.children other = tree.kindChildren kind := by
  have sameLists {after : Tree} (lists : after.lists = tree.lists) (kind : NodeKind) :
      after.kindChildren kind = tree.kindChildren kind := by
    refine List.flatMap_congr fun slot _ => ?_
    cases slot with
    | one child => cases child <;> rfl
    | many range => rw [slotChildren, slotChildren, items, items, lists]
  cases ref with
  | none => exact .inl rfl
  | some number =>
    rw [Tree.setKind]
    simp only
    split
    · rename_i inside
      have nodes (changed : Tree) :
          (changed.adopt (some number) kind).touch.nodes = changed.nodes := by simp
      rw [Tree.children, sameLists (by simp), kind_of_nodes (nodes _), kind_set tree inside]
      split
      · rename_i same
        exact .inr ⟨same, rfl⟩
      · exact .inl rfl
    · exact .inl rfl

/-- The ways down end one step later when a node gets a kind whose only child has no children. -/
theorem Ends.setKind {bound : Nat} {target ref leaf : Ref} {kind : NodeKind}
    (ends : tree.Ends bound target)
    (only : tree.kindChildren kind = [leaf]) (isLeaf : tree.children leaf = [])
    (stored : ∀ number ∈ leaf, number < tree.size)
    (differ : leaf ≠ ref) : (Tree.setKind ref kind tree).2.Ends (bound + 1) target := by
  have size := tree.size_setKind ref kind
  induction bound generalizing target with
  | zero => exact ends.elim
  | succ bound ih =>
    refine ⟨fun number same => size ▸ ends.1 number same, fun child member => ?_⟩
    rcases tree.children_setKind ref kind target with same | ⟨-, same⟩
    · exact ih (ends.2 child (same ▸ member))
    · rw [same, only, List.mem_singleton] at member
      subst member
      refine ⟨fun number same => size ▸ stored number same, fun other below => ?_⟩
      rcases tree.children_setKind ref kind child with same | ⟨isRef, -⟩
      · rw [same, isLeaf] at below
        cases below
      · exact absurd isRef differ

/-- A name that is put into an argument leads no further down. -/
theorem Mirrors.carries_fill (mirrors : tree.Mirrors move image) {hole value : Ref}
    {modifier : Modifier}
    (isArgument : tree.kind hole = .argument modifier value) (name : String) :
    tree.Carries (Tree.setKind hole (.argument modifier (Build.ident name tree).1)
      (Build.ident name tree).2).2 := by
  intro target grounded _
  obtain ⟨grow, -⟩ := Build.ident_tracks name mirrors
  have size : (Build.ident name tree).2.size = tree.size + 1 := by
    simp [Build.ident, Build.node, alloc, Tree.size]
  have isNew : (Build.ident name tree).1 = some tree.size := rfl
  have kind : (Build.ident name tree).2.kind (some tree.size) = .ident name := by
    simp [Build.ident, Build.node, alloc, Tree.kind, Tree.node, Tree.size]
  have stored : tree.HasRef hole := hasRef_of_kind_ne (by simp [isArgument])
  have ends := grow.ends grounded.ends
  rw [depthBound, size_setKind, size]
  have isLeaf : (Build.ident name tree).2.children (some tree.size) = [] := by
    rw [Tree.children, kind]
    rfl
  refine ends.setKind rfl isLeaf ?_ ?_
  · rintro _ ⟨rfl⟩
    omega
  · rintro rfl
    exact not_hasRef_size stored

/-- Editing corresponding child positions changes both or none. -/
theorem substituteSlot_tracks {slot slot' : NodeSlot}
    (here : MirrorsSlot move tree image slot slot') (target : Ref)
    (replacements : List Ref) (listsOnly : Bool) :
    Edit.Tracks move (substituteSlot target replacements listsOnly slot)
      (substituteSlot (target.map move) (replacements.map (Option.map move)) listsOnly slot') tree
      image fun after afterImage result result' =>
        MirrorsSlot move after afterImage (result.getD slot) (result'.getD slot') ∧
        result'.isSome = result.isSome := by
  refine .given fun mirrors => ?_
  cases slot with
  | one child =>
    obtain rfl := mirrorsSlot_one_iff.1 here
    match replacements with
    | [] | _ :: _ :: _ => exact .pure fun _ => ⟨here, rfl⟩
    | [replacement] =>
      intro _
      simp only [substituteSlot, List.map_cons, List.map_nil, mirrors.map_inj]
      split
      · exact ⟨.refl mirrors, rfl, rfl⟩
      · exact ⟨.refl mirrors, here, rfl⟩
  | many range =>
    obtain ⟨range', rfl, lists⟩ := mirrorsSlot_many_iff.1 here
    intro _
    simp only [substituteSlot, lists.items, mirrors.map_contains, mirrors.map_substitute]
    split
    · obtain ⟨grow, ⟨lists', -⟩, -⟩ :=
        allocList_tracks (substitute target replacements (tree.items range)) mirrors
      exact ⟨grow, lists', rfl⟩
    · exact ⟨.refl mirrors, here, rfl⟩

/-- Putting nodes into the place of a child finds the child in both trees or in none. -/
theorem Mirrors.editChild (mirrors : tree.Mirrors move image) (parent target : Ref)
    (replacements : List Ref)
    (listsOnly : Bool) :
    (Tree.editChild parent target replacements listsOnly tree).2.Mirrors move
        (Tree.editChild (parent.map move) (target.map move)
          (replacements.map (Option.map move)) listsOnly image).2 ∧ (Tree.editChild
        (parent.map move) (target.map move) (replacements.map (Option.map move)) listsOnly image).1
        = (Tree.editChild parent target replacements listsOnly tree).1 := by
  have kinds := mirrors.kind parent
  have tries :
      Edit.Tracks move ((tree.kind parent).slots.mapM (tried target replacements listsOnly))
        ((image.kind (parent.map move)).slots.mapM
          (tried (target.map move) (replacements.map (Option.map move)) listsOnly)) tree image
      fun after afterImage => List.Forall₂ fun result result' =>
        MirrorsSlot move after afterImage (result.2.getD result.1) (result'.2.getD result'.1) ∧
          result'.2.isSome = result.2.isSome := by
    refine .mapM (fun _ _ _ _ _ _ grow twins =>
      ⟨twins.1.grow grow.grows.lists grow.growsImage.lists, twins.2⟩) ?_
    refine kinds.slots.imp fun slot slot' here middle middleImage grow => ?_
    have here := here.grow grow.grows.lists grow.growsImage.lists
    exact (substituteSlot_tracks here target replacements listsOnly).bind fun _ _ _ _ _ twins =>
      .pure fun _ => twins
  obtain ⟨grow, twins⟩ := tries mirrors
  cases ran : (tree.kind parent).slots.mapM (tried target replacements listsOnly) tree with
  | mk results middle =>
  cases ranImage : (image.kind (parent.map move)).slots.mapM
      (tried (target.map move) (replacements.map (Option.map move)) listsOnly) image with
  | mk results' middleImage =>
  rw [ran, ranImage] at grow twins
  have tested : results.map (·.2.isSome) = results'.map (·.2.isSome) := by
    rw [← List.forall₂_eq_eq_eq, List.forall₂_map_left_iff, List.forall₂_map_right_iff]
    exact twins.imp fun _ _ twins => twins.2.symm
  have same : (∃ result ∈ results', result.2.isSome) ↔ ∃ result ∈ results, result.2.isSome := by
    rw [← List.mem_map, ← List.mem_map, tested]
  by_cases found : ∃ result ∈ results, result.2.isSome
  · rw [editChild_eq ran found, editChild_eq ranImage (same.2 found)]
    have slots : List.Forall₂ (MirrorsSlot move middle middleImage)
        (results.map fun tried => tried.2.getD tried.1)
        (results'.map fun tried => tried.2.getD tried.1) := List.forall₂_map_left_iff.2
      (List.forall₂_map_right_iff.2 (twins.imp fun _ _ twins => twins.1))
    exact ⟨(grow.mirrors.setKind (.withSlots kinds.skeleton slots) parent).dropLink parent target
      replacements, rfl⟩
  · rw [editChild_eq_false ran found, editChild_eq_false ranImage (mt same.1 found)]
    exact ⟨grow.mirrors, rfl⟩

end Tree

/-- Where a change of a tree comes to something, one of an image of it does, too, and leads to an
image of what the first one leads to; and what they give is as said. -/
def Change.Tracks {α β : Type} (move : Nat → Nat) (change : Change α) (change' : Change β)
    (tree image : Tree)
    (post : Tree → Tree → α → β → Prop) : Prop :=
  tree.Mirrors move image → ∀ value after, change tree = .ok (value, after) →
    ∃ value' afterImage, change' image = .ok (value', afterImage) ∧ after.Mirrors move afterImage ∧
      post after afterImage value value'

namespace Change

open Refactory.Tree

variable {α β γ δ : Type} {move : Nat → Nat} {tree image : Tree}

namespace Tracks

variable {change : Change α} {change' : Change β} {post post' : Tree → Tree → α → β → Prop}

theorem pure {value : α} {value' : β} (posted : post tree image value value') :
    Change.Tracks move (Pure.pure value) (Pure.pure value') tree image post := by
  rintro mirrors _ _ ⟨⟩
  exact ⟨value', image, rfl, mirrors, posted⟩

theorem bind {next : α → Change γ} {next' : β → Change δ} {post' : Tree → Tree → γ → δ → Prop}
    (first : Change.Tracks move change change' tree image post)
    (others : ∀ after afterImage value value', post after afterImage value value' →
      Change.Tracks move (next value) (next' value') after afterImage post') :
    Change.Tracks move (change >>= next) (change' >>= next') tree image post' := by
  intro mirrors value after done
  change Except.bind (change tree) (fun result => next result.1 result.2) = _ at done
  cases came : change tree with
  | error cause =>
    rw [came] at done
    cases done
  | ok result =>
    rw [came] at done
    obtain ⟨middle', middleImage, came', mirrors', posted⟩ := first mirrors _ _ came
    obtain ⟨value', afterImage, done', rest⟩ := others _ middleImage _ _ posted mirrors' _ _ done
    exact ⟨value', afterImage, (bind_of_ok came').trans done', rest⟩

/-- What is known besides of what the change of the tree comes to. -/
theorem also (tracks : Change.Tracks move change change' tree image post) (fact : Tree → α → Prop)
    (holds : ∀ value after, change tree = .ok (value, after) → fact after value) :
    Change.Tracks move change change' tree image fun after afterImage value value' =>
        post after afterImage value value' ∧ fact after value := by
  intro mirrors value after done
  obtain ⟨value', afterImage, done', mirrors', posted⟩ := tracks mirrors value after done
  exact ⟨value', afterImage, done', mirrors', posted, holds value after done⟩

/-- That the one tree mirrors the other may be used of the trees before. -/
theorem given
    (tracks : tree.Mirrors move image → Change.Tracks move change change' tree image post) :
    Change.Tracks move change change' tree image post := fun mirrors => tracks mirrors mirrors

/-- Edits as parts of changes. -/
theorem edits {edit : Edit α} {edit' : Edit β} (tracks : tree.Mirrors move image →
      (edit tree).2.Mirrors move (edit' image).2 ∧
        post (edit tree).2 (edit' image).2 (edit tree).1 (edit' image).1) :
    Change.Tracks move (liftM edit) (liftM edit') tree image post := by
  intro mirrors value after done
  obtain ⟨rfl, rfl⟩ := Prod.mk.inj (Except.ok.inj (show Except.ok (edit tree) = _ from done))
  exact ⟨(edit' image).1, (edit' image).2, rfl, tracks mirrors⟩

/-- Edits that let both trees grow as parts of changes. -/
theorem lift {edit : Edit α} {edit' : Edit β} {posted : Tree → Tree → α → β → Prop}
    (tracks : Edit.Tracks move edit edit' tree image posted)
    (weaken : ∀ after afterImage value value', GrowAlike move tree image after afterImage →
      posted after afterImage value value' → post after afterImage value value') :
    Change.Tracks move (liftM edit) (liftM edit') tree image post :=
  .edits fun mirrors =>
    ⟨(tracks mirrors).1.mirrors, weaken _ _ _ _ (tracks mirrors).1 (tracks mirrors).2⟩

theorem get_bind {next : Tree → Change α} {next' : Tree → Change β}
    (tracks : Change.Tracks move (next tree) (next' image) tree image post) :
    Change.Tracks move (MonadState.get >>= next) (MonadState.get >>= next') tree image post :=
    tracks

theorem require_bind {found : Option γ} {found' : Option δ} {value : γ} {value' : δ}
    {next : γ → Change α}
    {next' : δ → Change β} {cause cause' : Violation} (isFound : found = some value)
    (isFound' : found' = some value')
    (tracks : Change.Tracks move (next value) (next' value') tree image post) :
    Change.Tracks move (require found cause >>= next)
    (require found' cause' >>= next') tree image post := by
  subst isFound isFound'
  exact tracks

/-- Changes for each element of corresponding lists. -/
theorem forM {change : α → Change PUnit} {change' : β → Change PUnit} {items : List α}
    {items' : List β}
    (each : List.Forall₂ (fun item item' => ∀ middle middleImage, Change.Tracks move (change item)
        (change' item') middle middleImage fun _ _ _ _ => True) items items') :
    Change.Tracks move (items.forM change) (items'.forM change') tree image fun _ _ _ _ =>
    True := by
  induction items generalizing items' tree image with
  | nil =>
    obtain rfl := List.forall₂_nil_left_iff.1 each
    exact .pure trivial
  | cons item items ih =>
    obtain ⟨item', items', here, others, rfl⟩ := List.forall₂_cons_left_iff.1 each
    exact (here tree image).bind fun _ _ _ _ _ => ih others

end Tracks

theorem throw_tracks {post : Tree → Tree → α → β → Prop} (error : RefactoringError)
    (change' : Change β) :
    Change.Tracks move (throw error) change' tree image post := by
  rintro - _ _ ⟨⟩

/-- What was found in both trees. -/
theorem demand_tracks {found found' : Bool} (same : found' = found) (cause cause' : Violation) :
    Change.Tracks move (demand found cause) (demand found' cause') tree image fun _ _ _ _ =>
    True := by
  subst same
  rw [demand, demand]
  split
  · exact .pure trivial
  · exact throw_tracks _ _

theorem require_tracks {found : Option α} {found' : Option β}
    {f : α → β} (same : found' = found.map f) (cause cause' : Violation) :
    Change.Tracks move (require found cause) (require found' cause') tree image
      fun _ _ value value' => value' = f value ∧ found = some value := by
  subst same
  cases found with
  | none => exact throw_tracks _ _
  | some value => exact .pure ⟨rfl, rfl⟩

/-- Putting corresponding nodes into corresponding places. -/
theorem put_tracks (parent target replacement : Ref) :
    Change.Tracks move (put parent target replacement)
      (put (parent.map move) (target.map move) (replacement.map move))
        tree image fun _ _ _ _ => True := by
  cases parent with
  | none => exact .edits fun mirrors => ⟨mirrors.setRoot replacement, trivial⟩
  | some parent =>
    have places : Change.Tracks move (liftM (Tree.replaceChild (some parent) target replacement))
        (liftM (Tree.replaceChild (some (move parent)) (target.map move) (replacement.map move)))
        tree image fun _ _ found found' => found' = found :=
      .edits fun mirrors => mirrors.editChild (some parent) target [replacement] false
    exact places.bind fun _ _ _ _ same => demand_tracks same _ _

/-- Putting corresponding statements in front of corresponding ones. -/
theorem putBefore_tracks (statement : Ref) (before : List Ref) :
    Change.Tracks move (putBefore statement before)
      (putBefore (statement.map move) (before.map (Option.map move)))
        tree image fun _ _ _ _ => True := by
  refine .given fun mirrors => .get_bind ?_
  have statements : before.map (Option.map move) ++ [statement.map move]
      = (before ++ [statement]).map (Option.map move) := by
    rw [List.map_append, List.map_singleton]
  simp only [mirrors.parent, mirrors.isStatementList, Option.isSome_map, statements]
  split
  · have places : Change.Tracks move
        (liftM (Tree.spliceChild (tree.parent statement) statement (before ++ [statement])))
        (liftM (Tree.spliceChild ((tree.parent statement).map move) (statement.map move)
          ((before ++ [statement]).map (Option.map move)))) tree image fun _ _ found found' =>
          found' = found := .edits fun mirrors => mirrors.editChild _ _ _ _
    exact places.bind fun _ _ _ _ same => demand_tracks same _ _
  · have built : Change.Tracks move (liftM (Build.block (before ++ [statement])))
        (liftM (Build.block ((before ++ [statement]).map (Option.map move)))) tree image
        fun _ _ block block' => block' = block.map move :=
      .lift (Build.block_tracks _) fun _ _ _ _ _ found => found.1
    refine built.bind fun _ _ block _ isBlock => ?_
    subst isBlock
    exact put_tracks _ _ block

end Change

end Refactory
