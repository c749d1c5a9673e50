import Refactory.Proofs.Code.Substitution
import Refactory.Proofs.Tree.Rereading

/-!
# Substitutions as maps of terms

A fold decides by the numbers of the nodes that it gets back whether a node is to be made anew. What
comes out is nevertheless a map of terms (`Tree.MapsTo`): the topmost nodes that pass the test are
replaced and nothing else is, the result is the node itself exactly when there was nothing to
replace, and whatever has nothing to replace in it is still the same node. The three substitutions
that put new nodes everywhere are such maps (`Tree.WellFormed.substitutions_map`).
-/
namespace Refactory

namespace Term

variable {test : Ref → Bool} {value : Outline → Outline} {moved : Ref → Ref} {old : Outline}

/-- No part of a term is replaced exactly when none passes the test. -/
theorem topmost_eq_nil_iff : old.topmost test = [] ↔ ∀ ref ∈ old.refs, test ref = false := by
  induction old using Term.induction with
  | step place form ih =>
    rw [topmost_node, refs_node, List.forall_mem_cons]
    cases hit : test place.ref with
    | true => simp
    | false =>
      simp only [Bool.false_eq_true, if_false, true_and, List.flatMap_eq_nil_iff, List.mem_flatMap]
      constructor
      · rintro none ref ⟨child, held, inside⟩
        exact (ih child held).1 (none child held) ref inside
      · exact fun none child held => (ih child held).2 fun ref inside =>
          none ref ⟨child, held, inside⟩

/-- A term remains, or it is itself one of the topmost parts that pass a test. -/
theorem self_mem_remaining_or_topmost (test : Ref → Bool)
    (old : Outline) : old ∈ old.remaining test ∨ old ∈ old.topmost test := by
  rcases old with ⟨place, form⟩
  rw [remaining_node, topmost_node]
  cases test place.ref with
  | true => exact .inr (.head _)
  | false => exact .inl (.head _)

namespace Spares

/-- The root of a term is the node that it was exactly when no part passes the test. -/
theorem ref_eq_iff (spares : Spares test value moved old) :
    (old.replacing test value moved).ref = old.ref ↔ ∀ ref ∈ old.refs, test ref = false :=
  (spares old (self_mem_remaining_or_topmost test old)).trans topmost_eq_nil_iff

/-- What holds of a term holds of its children where the term itself is not replaced. -/
theorem child {child : Outline} (spares : Spares test value moved old) (miss : test old.ref = false)
    (held : child ∈ old.children) : Spares test value moved child := by
  intro part there
  refine spares part ?_
  rcases old with ⟨place, form⟩
  rw [ref_node] at miss
  rw [remaining_node, topmost_node, if_neg (Bool.eq_false_iff.1 miss),
    if_neg (Bool.eq_false_iff.1 miss)]
  rcases there with remains | topmost
  · exact .inl (.tail _ (List.mem_flatMap.2 ⟨child, held, remains⟩))
  · exact .inr (List.mem_flatMap.2 ⟨child, held, topmost⟩)

end Spares

/-- The children of a part that is not replaced are its children with what is put into them. -/
theorem children_replacing (miss : test old.ref = false) :
    (old.replacing test value moved).children = old.children.map (replacing test value moved) := by
  rw [children, kind_replacing miss, parts_mapChildren]
  rfl

end Term

namespace Tree

open Term

variable {before after : Tree} {test : Ref → Bool} {value : Outline → Outline} {moved : Ref → Ref}
  {old : Outline}

/-- Where nothing on the way to a node and nothing at or below it passes the test, the same way
leads to the same node afterwards. -/
theorem follow?_replacing (stands : before.Stands old)
    (standsNew : after.Stands (old.replacing test value moved))
    (spares : Term.Spares test value moved old) {path : List Nat} {node : Ref}
    (found : before.follow? old.ref path = some node)
    (misses : ∀ front, front <+: path → ∀ met, before.follow? old.ref front = some met →
      test met = false)
    (none : ∀ inner ∈ before.descendants node, test inner = false) :
    after.follow? (old.replacing test value moved).ref path = some node := by
  induction path generalizing old with
  | nil =>
    obtain rfl := Option.some.inj found
    rw [stands.descendants] at none
    rw [follow?, spares.ref_eq_iff.2 none]
  | cons position path ih =>
    have miss : test old.ref = false := misses [] List.nil_prefix old.ref rfl
    obtain ⟨met, isChild, found⟩ := Option.bind_eq_some_iff.1 found
    rw [stands.shown.here.children, List.getElem?_map, Option.map_eq_some_iff] at isChild
    obtain ⟨child, atPosition, rfl⟩ := isChild
    have held := List.mem_of_getElem? atPosition
    have childrenAfter := standsNew.shown.here.children
    rw [children_replacing miss, List.map_map] at childrenAfter
    have isChildAfter : (after.children (old.replacing test value moved).ref)[position]?
        = some (child.replacing test value moved).ref := by
      rw [childrenAfter, List.getElem?_map, atPosition]
      rfl
    rw [follow?, isChildAfter, Option.bind_some]
    have heldAfter : child.replacing test value moved ∈ (old.replacing test value moved).children :=
      children_replacing miss ▸ List.mem_map_of_mem held
    refine ih (stands.subterm (child_mem_subterms held))
      (standsNew.subterm (child_mem_subterms heldAfter))
      (spares.child miss held) found fun front isFront met reached => ?_
    refine misses (position :: front) (List.cons_prefix_cons.2 ⟨rfl, isFront⟩) met ?_
    rw [follow?, stands.shown.here.children, List.getElem?_map, atPosition]
    exact reached

/-- A node comes to another one in which something is put in the place of the topmost nodes that
pass a test. -/
structure MapsTo (before : Tree) (test : Ref → Bool) (put : Outline → Shape) (ref result : Ref)
    (after : Tree) : Prop where
  /-- The result has the shape of the node, but for what is put there. -/
  shape : (after.outline result).shape = (before.outline ref).shapePutting test put
  /-- The result is the node itself exactly when no node at or below it passes the test. -/
  same : result = ref ↔ ∀ node ∈ before.descendants ref, test node = false
  /-- Outside of what is replaced, a node is where it was if nothing at or below it passes the
  test. -/
  kept : ∀ path node, before.follow? ref path = some node →
    (∀ front, front <+: path → ∀ met, before.follow? ref front = some met → test met = false) →
    (∀ inner ∈ before.descendants node, test inner = false) → after.follow? result path = some node
  /-- The nodes that were there have the same kinds and spans. -/
  nodes : ∀ number < before.size, after.node (some number) = before.node (some number)
  /-- They have the same children. -/
  children : ∀ number < before.size, after.children (some number) = before.children (some number)
  /-- The links of the result and of what is below it agree with their places. -/
  stands : after.Stands (after.outline result)

/-- A fold that puts new terms in the place of the nodes that pass a test maps terms. -/
theorem fold_maps {rule : Rule} {put : Outline → Outline → Prop} {shape : Shape}
    (serves : rule.Serves before (fun _ => []) (Puts test put))
    (shapes : ∀ part new, put part new → new.shape = shape)
    (stored : before.Stored) (stands : before.Stands old) : ∃ result count after,
      fold rule old.ref before = ((result, count), after) ∧
      MapsTo before test (fun _ => shape) old.ref result after := by
  obtain ⟨_, count, after, folded, builds, puts⟩ :=
    fold_builds serves stored (StandsAll.singleton_iff.2 stands)
  obtain ⟨value, moved, rfl, arePut, spares⟩ := puts.exists_replacing stands.once
  have standsNew := builds.stands.each _ (.head _)
  have stays {number : Nat} (inside : number < before.size) : before.HasRef (some number) :=
    ⟨number, inside, rfl⟩
  refine ⟨_, count, after, folded, ?_⟩
  constructor
  case shape =>
    rw [standsNew.outline, stands.outline]
    exact shape_replacing fun part topmost => shapes part _ (arePut part topmost)
  case same => rw [stands.descendants, spares.ref_eq_iff]
  case kept => exact fun path node found misses none =>
    follow?_replacing stands standsNew spares found misses none
  case nodes => exact fun number inside => builds.frame.node_eq (stays inside) List.not_mem_nil
  case children => exact fun number inside =>
    builds.frame.children_eq stored (stays inside) List.not_mem_nil
  case stands => exact standsNew.outline.symm ▸ standsNew

/-- The shape of the element of a collection at a place that has a name. -/
def elementShape (collection : Shape) (counter : String) : Shape :=
  .node () (.index (some collection) [.node () (.ident counter)])

theorem IsElementOf.shape {collection part new : Outline} {counter : String}
    (isElement : IsElementOf collection counter part new) :
    new.shape = elementShape collection.shape counter := by
  obtain ⟨copy, position, form, same, isName⟩ := isElement
  rcases new with ⟨place, _⟩
  obtain rfl : _ = Kind.index (some copy) [position] := form
  rw [elementShape, ← same, ← shape_of_ident isName]
  rfl

/-- In a well-formed tree, renaming the references of a referent, putting a name in the place of the
elements of a collection at a counter and putting such elements in the place of a loop variable are
maps of terms, each by its own test. -/
theorem WellFormed.substitutions_map {tree : Tree} (wellFormed : tree.WellFormed) {ref : Ref}
    (attached : ref ∈ tree.attached)
    (model : Model) :
    (∀ (referent : Referent) (name : String), ∃ result after,
      renameReferences model referent name ref tree = (result, after) ∧
        MapsTo tree (referent.isAt tree model) (fun _ => .node () (.ident name)) ref result after) ∧
    (∀ (counter : SymbolId), ∀ collection ∈ tree.attached, ∀ name : String, ∃ result count after,
      nameElements model counter collection name ref tree = ((result, count), after) ∧
        MapsTo tree (tree.isElementAt model counter collection)
          (fun _ => .node () (.ident name)) ref result after) ∧
    (∀ (element : SymbolId), ∀ collection ∈ tree.attached, ∀ counter : String, ∃ result after,
      indexElements model element collection counter ref tree = (result, after) ∧
        MapsTo tree ((Referent.symbol element).isAt tree model)
          (fun _ => elementShape (tree.outline collection).shape counter) ref result after) := by
  obtain ⟨whole, program⟩ := wellFormed_iff.1 wellFormed
  rw [program.attached] at attached ⊢
  obtain ⟨term, within, rfl⟩ := mem_refs.1 attached
  have stands := program.stands.subterm within
  refine ⟨fun referent name => ?rename, fun counter collection isNode name =>
    ?name, fun element collection isNode counter => ?index⟩
  case rename =>
    have serves := @putting_ident_serves tree (referent.isAt · model ·) name
      fun _ _ stands keeps => isAt_of_keeps referent model stands keeps
    obtain ⟨result, count, after, folded, maps⟩ :=
      fold_maps serves (fun _ _ => shape_of_ident) program.stored stands
    exact ⟨result, after,
      congrArg (fun folded : (Ref × Nat) × Tree => (folded.1.1, folded.2)) folded, maps⟩
  case name =>
    obtain ⟨target, isTarget, rfl⟩ := mem_refs.1 isNode
    have standsTarget := program.stands.subterm isTarget
    have serves := @putting_ident_serves tree (·.isElementAt model counter target.ref ·) name
      fun _ _ standsTerm keeps => isElementAt_of_keeps model counter standsTarget standsTerm keeps
    exact fold_maps serves (fun _ _ => shape_of_ident) program.stored stands
  case index =>
    obtain ⟨target, isTarget, rfl⟩ := mem_refs.1 isNode
    have standsTarget := program.stands.subterm isTarget
    have serves :=
      @putting_element_serves tree ((Referent.symbol element).isAt · model ·) target counter
        (fun _ _ stands keeps => isAt_of_keeps _ model stands keeps) standsTarget
    obtain ⟨result, count, after, folded, maps⟩ :=
      fold_maps serves (fun _ _ => IsElementOf.shape) program.stored stands
    rw [standsTarget.outline]
    exact ⟨result, after,
      congrArg (fun folded : (Ref × Nat) × Tree => (folded.1.1, folded.2)) folded, maps⟩

/-- Renaming a variable in a call makes a new call, and leaves the argument without the variable
where it was. -/
theorem WellFormed.substitutions_map_of_parse :
    ∃ tree result after, Tree.parse 0 "int i = 0; f(g, i);" = .ok tree ∧
    tree.WellFormed ∧ some 9 ∈ tree.attached ∧
      renameReferences (Model.build tree) (.symbol 0) "j" (some 9) tree = (result, after) ∧
      result ≠ some 9 ∧ after.follow? result [1] = some (some 6) := by
  have computed : (Tree.parse 0 "int i = 0; f(g, i);").toOption.any
      (fun tree => decide (some 9 ∈ tree.attached ∧
      tree.follow? (some 9) [1] = some (some 6) ∧
        (Referent.symbol 0).isAt tree (Model.build tree) (some 9) = false ∧
      (∀ inner ∈ tree.descendants (some 6), (Referent.symbol 0).isAt tree (Model.build tree) inner
        = false) ∧
      ∃ inner ∈ tree.descendants (some 9), (Referent.symbol 0).isAt tree (Model.build tree) inner
        = true)) = true := by
    decide +kernel
  obtain ⟨tree, parsed, facts⟩ := exists_of_any computed
  obtain ⟨isNode, found, missCall, missArgument, use, below, isUse⟩ := of_decide_eq_true facts
  obtain ⟨-, outline, -, program, -⟩ := exists_isProgram_of_parse parsed
  obtain ⟨result, after, renamed, maps⟩ :=
    (program.wellFormed.substitutions_map isNode (Model.build tree)).1 (.symbol 0) "j"
  refine ⟨tree, result, after, parsed, program.wellFormed, isNode, renamed, fun same => ?_,
    maps.kept [1] _ found (fun front isFront met reached => ?_) missArgument⟩
  · exact Bool.noConfusion (isUse.symm.trans (maps.same.1 same use below))
  · rcases List.prefix_cons_iff.1 isFront with rfl | ⟨rest, rfl, isRest⟩
    · exact Option.some.inj reached ▸ missCall
    · obtain rfl := List.prefix_nil.1 isRest
      obtain rfl := Option.some.inj (found.symm.trans reached)
      exact missArgument _ (tree.mem_descendants_self 6)

end Tree

end Refactory
