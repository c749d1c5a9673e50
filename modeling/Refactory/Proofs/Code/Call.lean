import Refactory.Code.Abstraction
import Refactory.Proofs.Code.Building

/-!
# Terms of calls

What the recognisers of calls find in a tree is what the terms there have: the member access of a
call, the value of its only argument, the parts of a simple lambda, what is inside of parentheses.
-/
namespace Refactory

namespace Term

variable {α : Type}

mutual

/-- An expression without parentheses around it. -/
def bare : Term α → Option (Term α)
  | .node _ (.paren inner) => bareOf inner
  | term => some term

/-- An optional expression without parentheses around it. -/
def bareOf : Option (Term α) → Option (Term α)
  | none => none
  | some term => bare term

end

/-- What is inside of parentheses is a part of what stands in them. -/
theorem exists_of_bareOf {child : Option (Term α)} {inner : Term α}
    (isBare : bareOf child = some inner) :
    ∃ term, child = some term ∧ inner ∈ term.subterms := by
  cases child with
  | none => cases isBare
  | some term =>
    refine ⟨term, rfl, ?_⟩
    rw [bareOf] at isBare
    induction term using Term.induction with
    | step note form ih =>
      cases form
      case paren below =>
        rw [bare] at isBare
        cases below with
        | none => cases isBare
        | some below =>
          have held : below ∈ (Term.node note (.paren (some below))).children := by
            simp [children, kind, parts]
          exact mem_subterms_of_child held (ih below held isBare)
      all_goals
        obtain rfl := Option.some.inj isBare
        exact self_mem_subterms _

/-- A call of a member access with one plain argument. -/
def IsCallOn {α : Type} (callee function call : Term α) : Prop :=
  ∃ place argument, call
    = .node place (.invoke (some callee) [.node argument (.argument .plain (some function))])

end Term

namespace Tree

open Term

section

variable {tree : Tree} {term : Outline}

/-- Only a node that is there has a kind other than that of no node. -/
theorem exists_of_kind {child : Option Outline} {kind : NodeKind}
    (found : tree.kind (refOf child) = kind)
    (other : kind ≠ .null) : ∃ term, child = some term := by
  cases child with
  | none => exact absurd found.symm other
  | some term => exact ⟨term, rfl⟩

/-- A call of a member is made of the member access and its receiver. -/
theorem calledMember?_eq_some {called : CalledMember} (shown : term.All tree.Shows)
    (found : tree.calledMember? term.ref = some called) :
    ∃ access receiver arguments, term.kind = .invoke (some access) arguments ∧
      access.kind = .member receiver called.name called.conditional ∧ called.access = access.ref ∧
      called.receiver = refOf receiver := by
  rw [calledMember?] at found
  split at found
  · rename_i callee arguments isCall
    have depicts := shown.here.depicts
    rw [isCall] at depicts
    obtain ⟨callee, arguments, form, rfl, -⟩ := depicts.invoke
    split at found
    · rename_i receiver name conditional isAccess
      obtain rfl := Option.some.inj found
      obtain ⟨access, rfl⟩ := exists_of_kind isAccess (by simp)
      have isChild : access ∈ term.children := by simp [Term.children, form, parts]
      have depicts := (shown.child isChild).here.depicts
      rw [show tree.kind access.ref = _ from isAccess] at depicts
      obtain ⟨receiver, formAccess, rfl⟩ := depicts.member
      exact ⟨access, receiver, arguments, form, formAccess, rfl, rfl⟩
    · cases found
  · cases found

/-- A call of a member access is found to call the member. -/
theorem calledMember?_of_form {access : Outline} {receiver : Option Outline}
    {arguments : List Outline}
    {name : String} {conditional : Bool} (shown : term.All tree.Shows)
    (form : term.kind = .invoke (some access) arguments)
    (formAccess : access.kind = .member receiver name conditional) :
    tree.calledMember? term.ref = some ⟨access.ref, refOf receiver, name, conditional⟩ := by
  have isChild : access ∈ term.children := by simp [Term.children, form, parts]
  obtain ⟨range, isCall, -⟩ := (form ▸ shown.here.depicts).of_invoke
  have isAccess := (formAccess ▸ (shown.child isChild).here.depicts).of_member
  rw [calledMember?, isCall]
  dsimp only
  rw [refOf_some, isAccess]

/-- A call with a single plain argument passes its value. -/
def Passes (call : Outline) (value : Option Outline) : Prop :=
  ∃ callee argument, call.kind = .invoke callee [argument] ∧ argument.kind = .argument .plain value

theorem singleArgument?_eq_some {value : Ref} (shown : term.All tree.Shows)
    (found : tree.singleArgument? term.ref = some value) :
    ∃ value', Passes term value' ∧ value = refOf value' := by
  rw [singleArgument?] at found
  split at found
  · rename_i callee arguments isCall
    have depicts := shown.here.depicts
    rw [isCall] at depicts
    obtain ⟨callee, arguments, form, rfl, entries⟩ := depicts.invoke
    split at found
    · rename_i argument single
      rw [single] at entries
      obtain ⟨argument, rfl, rfl⟩ := List.map_eq_singleton_iff.1 entries.symm
      split at found
      · rename_i isArgument
        obtain rfl := Option.some.inj found
        have isChild : argument ∈ term.children := by simp [Term.children, form, parts]
        have depicts := (shown.child isChild).here.depicts
        rw [isArgument] at depicts
        obtain ⟨value, formArgument, rfl⟩ := depicts.argument
        exact ⟨value, ⟨callee, argument, form, formArgument⟩, rfl⟩
      · cases found
    · cases found
  · cases found

/-- The argument of a call that passes a value. -/
theorem singleArgument?_of_passes {value : Option Outline} (shown : term.All tree.Shows)
    (passes : Passes term value) :
    tree.singleArgument? term.ref = some (refOf value) := by
  obtain ⟨callee, argument, form, formArgument⟩ := passes
  have isChild : argument ∈ term.children := by simp [Term.children, form, parts]
  obtain ⟨range, isCall, entries, -⟩ := (form ▸ shown.here.depicts).of_invoke
  have isArgument := (formArgument ▸ (shown.child isChild).here.depicts).of_argument
  rw [singleArgument?, isCall]
  dsimp only
  rw [entries, List.map_singleton]
  dsimp only
  rw [isArgument]

/-- The parts of a simple lambda are those of the term. -/
theorem simpleLambda?_eq_some {lambda : SimpleLambda} (shown : term.All tree.Shows)
    (found : tree.simpleLambda? term.ref = some lambda) :
    ∃ param body type, term.kind = .lambda [param] body lambda.parenthesized ∧
      tree.kind param.ref = .param type lambda.name ∧ lambda.param = param.ref ∧
      lambda.body = refOf body := by
  rw [simpleLambda?] at found
  split at found
  · rename_i params body parenthesized isLambda
    have depicts := shown.here.depicts
    rw [isLambda] at depicts
    obtain ⟨params, body, form, entries, rfl⟩ := depicts.lambda
    split at found
    · rename_i param single
      rw [single] at entries
      obtain ⟨param, rfl, rfl⟩ := List.map_eq_singleton_iff.1 entries.symm
      split at found
      · rename_i type name isParam
        split at found
        · cases found
        · obtain rfl := Option.some.inj found
          exact ⟨param, body, type, form, isParam, rfl, rfl⟩
      · cases found
    · cases found
  · cases found

/-- A node is a block when the term there is one. -/
theorem Shows.isBlock_iff (shows : tree.Shows term) :
    tree.isBlock term.ref = true ↔ ∃ statements, term.kind = .block statements := by
  have ofSkeleton {one many : Type} (kind : Kind one many) :
      (∃ statements, kind = .block statements) ↔ kind.skeleton = .block () := by
    cases kind <;> simp [Kind.skeleton, Kind.withSlots]
  rw [ofSkeleton, ← shows.depicts.skeleton, ← ofSkeleton, Tree.isBlock]
  cases tree.kind term.ref <;> simp

/-- A lambda of one parameter with an expression for its body, if it has a body. -/
def IsSimpleLambda (term : Outline) (lambda : SimpleLambda) : Prop :=
  ∃ param body type, term.kind = .lambda [param] body lambda.parenthesized ∧
    param.kind = .param type lambda.name ∧
    (∀ inner ∈ body, ∀ statements, inner.kind ≠ .block statements) ∧ lambda.param = param.ref ∧
    lambda.body = refOf body

/-- A simple lambda is found where the term is one. -/
theorem simpleLambda?_iff {lambda : SimpleLambda} (shown : term.All tree.Shows) :
    tree.simpleLambda? term.ref = some lambda ↔ IsSimpleLambda term lambda := by
  constructor
  · intro found
    obtain ⟨param, body, type, form, isParam, same, isBody⟩ := simpleLambda?_eq_some shown found
    have paramChild : param ∈ term.children := by simp [Term.children, form, parts]
    obtain ⟨type, isParam, -⟩ := (isParam ▸ (shown.child paramChild).here.depicts).param
    refine ⟨param, body, type, form, isParam, fun inner held statements isBlock => ?_, same, isBody⟩
    have bodyChild : inner ∈ term.children := by
      simp [Term.children, form, parts, Option.mem_def.1 held]
    have blocked := (shown.child bodyChild).here.isBlock_iff.2 ⟨statements, isBlock⟩
    obtain rfl : body = some inner := held
    rw [simpleLambda?] at found
    split at found
    · rename_i params inside parenthesized isLambda
      obtain ⟨_, other, form', -, rfl⟩ := (isLambda ▸ shown.here.depicts).lambda
      obtain rfl : other = some inner := by
        rw [form] at form'
        cases form'
        rfl
      rw [refOf_some, blocked] at found
      split at found
      · split at found <;> cases found
      · cases found
    · cases found
  · rintro ⟨param, body, type, form, isParam, noBlock, same, isBody⟩
    have paramChild : param ∈ term.children := by simp [Term.children, form, parts]
    obtain ⟨range, isLambda, entries, -⟩ := (form ▸ shown.here.depicts).of_lambda
    have kindParam := (isParam ▸ (shown.child paramChild).here.depicts).of_param
    have notBlock : tree.isBlock (refOf body) = false := by
      cases body with
      | none => rfl
      | some inner =>
        have bodyChild : inner ∈ term.children := by simp [Term.children, form, parts]
        refine Bool.eq_false_iff.2 fun isBlock => ?_
        obtain ⟨statements, same⟩ := (shown.child bodyChild).here.isBlock_iff.1 isBlock
        exact noBlock inner rfl statements same
    rw [simpleLambda?, isLambda]
    dsimp only
    rw [entries, List.map_singleton]
    dsimp only
    rw [kindParam]
    dsimp only
    rw [notBlock, ← same, ← isBody]
    rfl

/-- A stable path is a node that is there. -/
theorem isStablePath_none : tree.isStablePath none = false := rfl

end

/-- Terms below one of the terms that stand may be taken instead of it. -/
theorem StandsAll.narrow {tree : Tree} {term : Outline} {inner others : List Outline}
    (all : tree.StandsAll (term :: others)) (standsInner : tree.StandsAll inner)
    (within : inner.flatMap refs ⊆ term.refs) : tree.StandsAll (inner ++ others) := by
  obtain ⟨-, standing, apart⟩ := StandsAll.cons_iff.1 all
  exact StandsAll.append_iff.2 ⟨standsInner, standing, fun ref member => apart (within member)⟩

/-- The callee of a call stands apart from the value that is passed. -/
theorem Stands.calleeAndValue {tree : Tree} {call callee argument : Outline}
    {value : Option Outline}
    (stands : tree.Stands call) (form : call.kind = .invoke (some callee) [argument])
    (formArgument : argument.kind = .argument .plain value) :
    tree.StandsAll (callee :: value.toList) ∧
    (callee :: value.toList).flatMap refs ⊆ call.refs := by
  have children : call.children = [callee, argument] := by simp [Term.children, form, parts]
  have childrenArgument : argument.children = value.toList := by
    simp [Term.children, formArgument, parts]
  have standsChildren := stands.children.1
  rw [children] at standsChildren
  have isArgument : argument ∈ call.children := by simp [children]
  have standsValue := (stands.subterm (child_mem_subterms isArgument)).children.1
  rw [childrenArgument] at standsValue
  have valueWithin : value.toList.flatMap refs ⊆ argument.refs := by
    rw [refs_eq, innerRefs, childrenArgument]
    exact List.subset_cons_self _ _
  have swapped := (standsChildren.perm (.swap _ _ _)).narrow standsValue valueWithin
  refine ⟨swapped.perm List.perm_append_comm, ?_⟩
  rw [refs_eq, innerRefs, children, List.flatMap_cons, List.flatMap_cons, List.flatMap_singleton]
  refine List.append_subset.2 ⟨?_, ?_⟩
  · exact fun ref member => .tail _ (List.mem_append_left _ member)
  · exact fun ref member => .tail _ (List.mem_append_right _ (valueWithin member))

/-- What is found inside the parentheses around an expression is the expression without them. -/
theorem stripParens_eq {tree : Tree} {child : Option Outline} (all : tree.StandsAll child.toList) :
    tree.stripParens (refOf child) = refOf (bareOf child) := by
  have within (bound : Nat) {child : Option Outline} (shown : ∀ term ∈ child, term.All tree.Shows)
      (enough : (child.toList.flatMap subterms).length < bound) :
      tree.stripParensWithin bound (refOf child) = refOf (bareOf child) := by
    induction bound generalizing child with
    | zero => cases enough
    | succ bound ih =>
      cases child with
      | none => rfl
      | some term =>
        have shown := shown term rfl
        rcases term with ⟨place, form⟩
        have depicts : tree.Depicts (tree.kind place.ref) form := shown.here.depicts
        rw [stripParensWithin, refOf_some, ref_node, bareOf]
        split
        · rename_i inner isParen
          obtain ⟨inner, rfl, rfl⟩ := (isParen ▸ depicts).paren
          rw [bare]
          refine ih (fun term held =>
            shown.child (by simp [Term.children, Term.kind, parts, Option.mem_def.1 held])) ?_
          simpa [subterms_node, parts] using enough
        · rename_i noParen
          have skeleton := depicts.skeleton
          cases form
          case paren inner =>
            generalize tree.kind place.ref = kind at noParen skeleton
            cases kind <;> cases skeleton
            exact absurd rfl (noParen _)
          all_goals rfl
  refine within _ (fun term held => (all.each term (by simpa using held)).shown)
    (Nat.lt_succ_of_le ?_)
  cases child with
  | none => exact Nat.zero_le _
  | some term => simpa using (all.each term (by simp)).length_le

end Tree

end Refactory
