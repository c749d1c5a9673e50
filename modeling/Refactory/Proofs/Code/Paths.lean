import Refactory.Proofs.Code.Call
import Refactory.Proofs.Tree.Renaming

/-!
# Paths as terms

A path is a name with members after it (`Term.IsPath`). A tree takes a node for a stable path when
the term that it shows there is one that skips nothing on null (`Tree.exists_isPath`,
`Tree.Stands.isStablePath`). What it takes for one storage are two paths along which the names mean
the same (`Tree.samePath_iff`), whatever else there is in the tree.
-/
namespace Refactory

namespace Term

variable {α : Type}

/-- A name with members after it, the last member first, none of which is skipped on null. -/
inductive IsPath (root : Term α) : List String → Term α → Prop
  /-- A name. -/
  | name {name : String} (isName : root.kind = .ident name) : IsPath root [] root
  /-- A member of a path. -/
  | member {name : String} {members : List String} {receiver term : Term α}
      (isMember : term.kind = .member (some receiver) name false)
      (path : IsPath root members receiver) :
      IsPath root (name :: members) term

variable {root term : Term α} {members : List String}

/-- A path is not a lambda. -/
theorem IsPath.kind_ne_lambda (path : IsPath root members term) (params : List (Term α))
    (body : Option (Term α))
    (parenthesized : Bool) : term.kind ≠ .lambda params body parenthesized := by
  intro isLambda
  cases path with
  | name isName => cases isName.symm.trans isLambda
  | member isMember => cases isMember.symm.trans isLambda

/-- There are more nodes in a path than members. -/
theorem IsPath.length_lt (path : IsPath root members term) :
    members.length < term.subterms.length := by
  induction path with
  | name => exact List.length_pos_of_mem (self_mem_subterms root)
  | @member name members receiver term isMember _ ih =>
    have held : receiver ∈ term.children := by simp [children, isMember, parts]
    exact Nat.lt_of_le_of_lt ih (Tree.length_subterms_lt held)

/-- Two stable paths that denote the same storage. -/
inductive SamePath (model : Model) : Outline → Outline → Prop
  /-- Two names that mean the same thing. -/
  | name {left right : Outline} {leftName rightName : String} (isLeft : left.kind = .ident leftName)
      (isRight : right.kind = .ident rightName)
      (same : Tree.sameName model left.ref right.ref leftName rightName = true) :
      SamePath model left right
  /-- The members of one name of two such paths. -/
  | member {left right leftReceiver rightReceiver : Outline} {name : String}
      (isLeft : left.kind = .member (some leftReceiver) name false)
      (isRight : right.kind = .member (some rightReceiver) name false)
      (same : SamePath model leftReceiver rightReceiver) :
      SamePath model left right

end Term

namespace Tree

open Term

variable {tree : Tree} {child : Option Outline} {term root : Outline} {members : List String}
  {bound : Nat}

/-- What is taken for a stable path is one. -/
theorem exists_isPath_of_isStablePathWithin (shown : ∀ term ∈ child, term.All tree.Shows)
    (found : tree.isStablePathWithin bound (refOf child) = true) :
    ∃ term root members, child = some term ∧ IsPath root members term := by
  induction bound generalizing child with
  | zero => cases found
  | succ bound ih =>
    rw [isStablePathWithin] at found
    split at found
    · rename_i name isName
      obtain ⟨term, rfl⟩ := exists_of_kind isName (by simp)
      have depicts := (shown term rfl).here.depicts
      rw [show tree.kind term.ref = _ from isName] at depicts
      exact ⟨term, term, [], rfl, .name depicts.ident⟩
    · rename_i receiver name isMember
      obtain ⟨term, rfl⟩ := exists_of_kind isMember (by simp)
      have depicts := (shown term rfl).here.depicts
      rw [show tree.kind term.ref = _ from isMember] at depicts
      obtain ⟨receiver, form, rfl⟩ := depicts.member
      obtain ⟨inner, root, members, rfl, path⟩ := ih (fun inner inside => (shown term rfl).child (by
        simp [Term.children, form, parts, Option.mem_def.1 inside])) found
      exact ⟨term, root, name :: members, rfl, .member form path⟩
    · cases found

theorem exists_isPath (shown : term.All tree.Shows) (found : tree.isStablePath term.ref = true) :
    ∃ root members, IsPath root members term := by
  obtain ⟨other, root, members, same, path⟩ :=
    @exists_isPath_of_isStablePathWithin tree (some term) tree.depthBound
      (fun inner inside => Option.some.inj inside ▸ shown) found
  cases same
  exact ⟨root, members, path⟩

theorem isStablePathWithin_of_isPath (path : IsPath root members term) (shown : term.All tree.Shows)
    (enough : members.length < bound) : tree.isStablePathWithin bound term.ref = true := by
  induction path generalizing bound with
  | name isName =>
    obtain ⟨bound, rfl⟩ := Nat.exists_eq_succ_of_ne_zero (Nat.ne_zero_of_lt enough)
    have depicts := shown.here.depicts
    rw [isName] at depicts
    rw [isStablePathWithin, depicts.of_ident]
  | @member name members receiver term isMember path ih =>
    obtain ⟨bound, rfl⟩ := Nat.exists_eq_succ_of_ne_zero (Nat.ne_zero_of_lt enough)
    have depicts := shown.here.depicts
    rw [isMember] at depicts
    rw [isStablePathWithin, depicts.of_member]
    exact ih (shown.child (by simp [Term.children, isMember, parts]))
      (Nat.lt_of_succ_lt_succ enough)

/-- A path that stands is a stable one. -/
theorem Stands.isStablePath (stands : tree.Stands term) (path : IsPath root members term) :
    tree.isStablePath term.ref = true :=
  isStablePathWithin_of_isPath path stands.shown
    (Nat.lt_succ_of_le (Nat.le_trans (Nat.le_of_lt path.length_lt) stands.length_le))

section

variable {model : Model} {left right : Outline}

/-- What is taken for the same path is one. -/
theorem exists_samePath_of_samePathWithin {other : Option Outline}
    (shown : ∀ term ∈ child, term.All tree.Shows)
    (shownOther : ∀ term ∈ other, term.All tree.Shows)
    (found : tree.samePathWithin model bound (refOf child) (refOf other) = true) :
    ∃ left right, child = some left ∧ other = some right ∧ SamePath model left right := by
  induction bound generalizing child other with
  | zero => cases found
  | succ bound ih =>
    rw [samePathWithin] at found
    split at found
    · rename_i leftName rightName isLeft isRight
      obtain ⟨left, rfl⟩ := exists_of_kind isLeft (by simp)
      obtain ⟨right, rfl⟩ := exists_of_kind isRight (by simp)
      have depictsLeft := (shown left rfl).here.depicts
      have depictsRight := (shownOther right rfl).here.depicts
      rw [show tree.kind left.ref = _ from isLeft] at depictsLeft
      rw [show tree.kind right.ref = _ from isRight] at depictsRight
      exact ⟨left, right, rfl, rfl, .name depictsLeft.ident depictsRight.ident found⟩
    · rename_i leftReceiver leftName rightReceiver rightName isLeft isRight
      obtain ⟨left, rfl⟩ := exists_of_kind isLeft (by simp)
      obtain ⟨right, rfl⟩ := exists_of_kind isRight (by simp)
      have depictsLeft := (shown left rfl).here.depicts
      have depictsRight := (shownOther right rfl).here.depicts
      rw [show tree.kind left.ref = _ from isLeft] at depictsLeft
      rw [show tree.kind right.ref = _ from isRight] at depictsRight
      obtain ⟨leftReceiver, formLeft, rfl⟩ := depictsLeft.member
      obtain ⟨rightReceiver, formRight, rfl⟩ := depictsRight.member
      obtain ⟨spelled, below⟩ := Bool.and_eq_true_iff.1 found
      obtain rfl := beq_iff_eq.1 spelled
      obtain ⟨leftInner, rightInner, rfl, rfl, same⟩ :=
        ih (fun inner inside => (shown left rfl).child (by
          simp [Term.children, formLeft, parts, Option.mem_def.1 inside]))
        (fun inner inside => (shownOther right rfl).child (by
          simp [Term.children, formRight, parts, Option.mem_def.1 inside])) below
      exact ⟨left, right, rfl, rfl, .member formLeft formRight same⟩
    · cases found

theorem samePathWithin_of_samePath (same : SamePath model left right) (shown : left.All tree.Shows)
    (shownOther : right.All tree.Shows) (enough : right.subterms.length ≤ bound) :
    tree.samePathWithin model bound left.ref right.ref = true := by
  induction same generalizing bound with
  | @name left right leftName rightName isLeft isRight same =>
    obtain ⟨bound, rfl⟩ := Nat.exists_eq_succ_of_ne_zero (Nat.ne_zero_of_lt
      (Nat.lt_of_lt_of_le (List.length_pos_of_mem (self_mem_subterms right)) enough))
    have depictsLeft := shown.here.depicts
    have depictsRight := shownOther.here.depicts
    rw [isLeft] at depictsLeft
    rw [isRight] at depictsRight
    rw [samePathWithin, depictsLeft.of_ident, depictsRight.of_ident]
    exact same
  | @member left right leftReceiver rightReceiver name isLeft isRight _ ih =>
    have heldLeft : leftReceiver ∈ left.children := by simp [Term.children, isLeft, parts]
    have heldRight : rightReceiver ∈ right.children := by simp [Term.children, isRight, parts]
    have shorter := length_subterms_lt heldRight
    obtain ⟨bound, rfl⟩ :=
      Nat.exists_eq_succ_of_ne_zero (Nat.ne_zero_of_lt (Nat.lt_of_lt_of_le shorter enough))
    have depictsLeft := shown.here.depicts
    have depictsRight := shownOther.here.depicts
    rw [isLeft] at depictsLeft
    rw [isRight] at depictsRight
    rw [samePathWithin, depictsLeft.of_member, depictsRight.of_member]
    have inner := ih (shown.child heldLeft) (shownOther.child heldRight)
      (Nat.le_of_lt_succ (Nat.lt_of_lt_of_le shorter enough))
    simpa using inner

/-- Two terms are the same path in a tree that shows them where the names along them mean the
same. -/
theorem samePath_iff {term : Option Outline} (shown : ∀ inner ∈ term, inner.All tree.Shows)
    (displays : tree.Displays right) :
    tree.samePath model (refOf term) right.ref = true ↔
    ∃ left, term = some left ∧ SamePath model left right := by
  refine ⟨fun found => ?_, fun found => ?_⟩
  · obtain ⟨left, other, rfl, isOther, same⟩ :=
      @exists_samePath_of_samePathWithin tree term tree.depthBound model (some right)
      shown (fun inner inside => Option.some.inj inside ▸ displays.shown) found
    cases isOther
    exact ⟨left, rfl, same⟩
  · obtain ⟨left, rfl, same⟩ := found
    exact samePathWithin_of_samePath same (shown left rfl) displays.shown
      (Nat.le_succ_of_le displays.length_le)

end

end Tree

end Refactory
