import Refactory.Proofs.Code.Building

/-!
# Putting code into a program

A change ends by putting what it has built into a program. Statements come in front of another one
in the list that holds it, or in a block around all of them (`Tree.IsProgram.putBefore`).
-/
namespace Refactory

variable {tree : Tree}

namespace Change

variable {α β : Type}

/-- A change that starts with reading the tree. -/
theorem get_bind (next : Tree → Change β) (tree : Tree) :
    ((get : Change Tree) >>= next) tree = next tree tree := rfl

/-- An edit at the front of a change. -/
theorem lift_bind (edit : Edit α) (next : α → Change β) (tree : Tree) :
    ((liftM edit : Change α) >>= next) tree = next (edit tree).1 (edit tree).2 := rfl

/-- A change after an edit whose outcome is known. -/
theorem bind_of_edit {edit : Edit α} {next : α → Change β} {after : Tree} {value : α}
    (edited : edit tree = (value, after)) :
    ((liftM edit : Change α) >>= next) tree = next value after := by
  rw [lift_bind, edited]

/-- A change after one that came to something. -/
theorem bind_of_ok {first : Change α} {next : α → Change β} {after : Tree} {value : α}
    (done : first tree = .ok (value, after)) : (first >>= next) tree = next value after := by
  change Except.bind (first tree) (fun done => next done.1 done.2) = _
  rw [done]
  rfl

/-- What is there is found without a violation. -/
theorem require_bind (value : α) (cause : Violation) (next : α → Change β) (tree : Tree) :
    (require (some value) cause >>= next) tree = next value tree := rfl

theorem putBefore_eq (statement : Ref) (before : List Ref) (tree : Tree) :
    putBefore statement before tree =
      if (tree.parent statement).isSome && tree.isStatementList (tree.parent statement) then
        demand (Tree.spliceChild (tree.parent statement) statement (before ++ [statement]) tree).1
          .unlistedStatement
          (Tree.spliceChild (tree.parent statement) statement (before ++ [statement]) tree).2
      else
        put (tree.parent statement) statement (Build.block (before ++ [statement]) tree).1
          (Build.block (before ++ [statement]) tree).2 := by
  rw [putBefore]
  change (if (tree.parent statement).isSome && tree.isStatementList (tree.parent statement) then _
    else _ : Change Unit) tree = _
  split <;> rfl

end Change

/-- Whether a node of the kind has a list of statements. -/
def Kind.isList {one many : Type} : Kind one many → Bool
  | .block _ | .unit _ => true
  | _ => false

theorem Kind.isList_of_skeleton {one many one' many' : Type} {kind : Kind one many}
    {other : Kind one' many'}
    (same : kind.skeleton = other.skeleton) : kind.isList = other.isList :=
  eq_of_skeleton (fun kind => kind.isList) (fun kind => by cases kind <;> rfl) same

theorem Tree.isStatementList_eq (tree : Tree)
    (ref : Ref) : tree.isStatementList ref = (tree.kind ref).isList := by
  rw [isStatementList]
  cases tree.kind ref <;> rfl

namespace Tree

open Term

/-- A node has a list of statements when the form that it shows has one. -/
theorem Shows.isStatementList {holder : Outline} (shows : tree.Shows holder) :
    tree.isStatementList holder.ref = holder.kind.isList :=
  (tree.isStatementList_eq holder.ref).trans (Kind.isList_of_skeleton shows.depicts.skeleton)

/-- A node with a list of statements has no single child. -/
theorem fitsInto_of_isList {form : Form Place} (isList : form.isList) (target : Ref)
    (new : List Outline) :
    ∀ content ∈ form.slots, FitsInto target new true content := by
  cases form <;> first | (cases isList; done) | simp [FitsInto]

/-- A statement of a program becomes some statements: among the others of its list, or in a
block. -/
inductive Becomes (whole statement : Outline) (new : List Outline) : Outline → Prop
  /-- The statements come into the list that holds the statement. -/
  | listed {holder : Outline} (within : holder ∈ whole.subterms)
      (held : statement ∈ holder.children)
      (fits : ∀ content ∈ holder.kind.slots, FitsInto statement.ref new true content) :
      Becomes whole statement new
        (Term.swap holder.ref (.node holder.note (Term.splice statement.ref new holder.kind)) whole)
  /-- The statements come into a block of their own, where no list holds the statement. -/
  | blocked (place : Place)
      (unlisted : ∀ holder ∈ whole.subterms, statement ∈ holder.children →
        holder.kind.isList = false) :
      Becomes whole statement new (Term.swap statement.ref (.node place (.block new)) whole)

/-- Putting statements in front of what a statement was made into gives a program. -/
theorem Prepares.putBefore {middle : Tree} {whole statement new : Outline} {before : List Outline}
    (prepares : Prepares tree middle whole statement (before ++ [new]))
    (program : tree.IsProgram whole)
    (within : statement ∈ whole.subterms) (same : new.ref = statement.ref)
    (unmoved : middle.parent statement.ref = tree.parent statement.ref) :
    ∃ after term, Change.putBefore statement.ref (before.map Term.ref) middle = .ok ((), after) ∧
      after.IsProgram term ∧ Becomes whole statement (before ++ [new]) term ∧
      Spares tree after whole statement := by
  have statements : (before ++ [new]).map Term.ref = before.map Term.ref ++ [statement.ref] := by
    simp [same]
  obtain ⟨changed, moved, frame, changes, moves⟩ := prepares.frame
  rw [Change.putBefore_eq, ← statements, unmoved]
  split
  · rename_i isList
    obtain ⟨isSome, isList⟩ := Bool.and_eq_true_iff.1 isList
    rcases program.parent_cases within with ⟨rfl, top⟩ | ⟨holder, inside, held, up⟩
    · simp [top] at isSome
    · rw [up] at isList ⊢
      have holderWithin := mem_refs.2 ⟨holder, inside, rfl⟩
      have sameKind := frame.kind_eq (program.stands.hasRef holderWithin) fun isChanged =>
        (program.stands.subterm inside).children.2
          (List.mem_flatMap.2 ⟨statement, held, changes _ holderWithin isChanged⟩)
      rw [isStatementList_eq, sameKind, ← isStatementList_eq,
        (program.stands.shows inside).isStatementList] at isList
      have fits := fitsInto_of_isList isList statement.ref (before ++ [new])
      obtain ⟨after, edited, edits, reshapes, -⟩ :=
        prepares.editChild program.stands (frame.stored program.stored) inside held fits
      refine ⟨after, _, ?_, program.reshape inside reshapes, .listed inside held fits,
        prepares.spares program.stands inside held edits⟩
      rw [show Tree.spliceChild holder.ref statement.ref _ middle = (true, after) from edited]
      rfl
  · rename_i noList
    obtain ⟨_, _, grown, built, builds, place, rfl, rfl⟩ :=
      Build.block_makes (frame.stored program.stored) prepares.stands
    rw [built]
    obtain ⟨after, put, isProgram, spares, -⟩ := (prepares.build program builds).put program within
    refine ⟨after, _, put, isProgram, .blocked place fun holder inside held => ?_, spares⟩
    have holderWithin := mem_refs.2 ⟨holder, inside, rfl⟩
    have sameKind := frame.kind_eq (program.stands.hasRef holderWithin) fun isChanged =>
      (program.stands.subterm inside).children.2
        (List.mem_flatMap.2 ⟨statement, held, changes _ holderWithin isChanged⟩)
    rw [program.stands.parent inside held, Bool.and_eq_true, isStatementList_eq, sameKind,
      ← isStatementList_eq,
      (program.stands.shows inside).isStatementList, not_and, Bool.not_eq_true] at noList
    exact noList (Option.isSome_iff_ne_none.2 (program.stands.hasRef holderWithin).ne_none)

/-- Putting statements that stand apart from a program in front of a statement gives a program. -/
theorem IsProgram.putBefore {whole statement : Outline} {before : List Outline}
    (program : tree.IsProgram whole) (within : statement ∈ whole.subterms)
    (all : tree.StandsAll before) (apart : (before.flatMap refs).Disjoint whole.refs) :
    ∃ after term, Change.putBefore statement.ref (before.map Term.ref) tree = .ok ((), after) ∧
      after.IsProgram term ∧ Becomes whole statement (before ++ [statement]) term ∧
      Spares tree after whole statement := by
  have standsStatement := program.stands.subterm within
  have inWhole := refs_subset within
  have standing : tree.StandsAll (before ++ [statement]) := by
    refine StandsAll.append_iff.2 ⟨all, StandsAll.singleton_iff.2 standsStatement, ?_⟩
    simpa using List.disjoint_of_subset_right inWhole apart
  have origin : ∀ ref ∈ (before ++ [statement]).flatMap refs, ref ∈ whole.refs →
      ref ∈ statement.refs := by
    intro ref member inside
    rw [List.flatMap_append, List.mem_append] at member
    rcases member with isNew | isOld
    · exact absurd inside (apart isNew)
    · simpa using isOld
  have prepares : Prepares tree tree whole statement (before ++ [statement]) :=
    ⟨⟨[], [], .refl tree, by simp, by simp⟩, standing, origin⟩
  exact prepares.putBefore program within rfl rfl

end Tree

end Refactory
