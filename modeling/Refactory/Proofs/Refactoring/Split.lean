import Refactory.Proofs.Code.Placing
import Refactory.Proofs.Code.Chained
import Refactory.Proofs.Refactoring.Attempt

/-!
# Splitting keeps programs

Splitting a call in a program gives a program with a run in the place of the call
(`LambdaCall.Stands.splitInto`). The functions of the run are made one after the other, each in a
wider part of the call (`Tree.Extends`), and what was made before stays whole.
-/
namespace Refactory

variable {context : Context}

namespace Tree

open Term

/-- Changes that each make a term of some form, from one scope to a wider one. -/
inductive Extends (start : Tree) :
    List (Change Ref) → List (Outline → Prop) → List Ref → List Ref → Prop
  /-- No changes. -/
  | nil {scope : List Ref} : Extends start [] [] scope scope
  /-- A change that makes a term beside all that was made before, and more changes. -/
  | cons {change : Change Ref} {changes : List (Change Ref)} {form : Outline → Prop}
      {forms : List (Outline → Prop)}
      {scope wider widest : List Ref}
      (first : ∀ tree outputs, Reworks scope start tree outputs → tree.Stored → ∃ new after,
        change tree = .ok (new.ref, after) ∧ Reworks wider start after (new :: outputs) ∧ form new)
      (others : Extends start changes forms wider widest) :
      Extends start (change :: changes) (form :: forms) scope widest

/-- One more change at the end. -/
theorem Extends.snoc {start : Tree} {changes : List (Change Ref)} {change : Change Ref}
    {forms : List (Outline → Prop)} {form : Outline → Prop} {scope wider widest : List Ref}
    (first : Extends start changes forms scope wider)
    (last : ∀ tree outputs, Reworks wider start tree outputs → tree.Stored → ∃ new after,
      change tree = .ok (new.ref, after) ∧ Reworks widest start after (new :: outputs) ∧ form new) :
    Extends start (changes ++ [change]) (forms ++ [form]) scope widest := by
  induction first with
  | nil => exact .cons last .nil
  | cons each _ ih => exact .cons each (ih last)

end Tree

namespace LambdaCall

open Term Refactory.Tree

section

variable {start : Tree} {functions : List (Change Ref)} {forms : List (Outline → Prop)}
  {scope wider : List Ref}

/-- Calls with functions that are made one after the other are a run on the receiver with these
functions. -/
theorem callEach_reworks {method : String} {receiver : Option Outline} {conditional : Bool}
    {tree : Tree}
    (stored : start.Stored) (extends' : Extends start functions forms scope wider)
    (reworks : Reworks scope start tree receiver.toList) (real : functions ≠ [] ∨ receiver.isSome) :
    ∃ (run : Outline) (after : Tree) (made : List Outline),
      callEach method (refOf receiver) conditional functions tree = .ok (run.ref, after) ∧
      Reworks wider start after [run] ∧
      List.Forall₂ (fun form function => form function) forms made ∧
      (functions = [] ∧ receiver = some run ∨ ∃ anchor calls, anchor.kind =
        .member receiver method conditional ∧ IsRun method anchor (run :: calls) made.reverse) := by
  induction extends' generalizing receiver conditional tree with
  | nil =>
    obtain ⟨run, rfl⟩ := Option.isSome_iff_exists.1 (real.resolve_left (not_not_intro rfl))
    exact ⟨run, tree, [], rfl, reworks, .nil, .inl ⟨rfl, rfl⟩⟩
  | @cons function functions form forms scope wider widest first others ih =>
    obtain ⟨new, middle, makes, reworks, isForm⟩ :=
      first tree _ reworks (reworks.frame.stored stored)
    have reworks := reworks.perm (List.perm_append_singleton new _).symm
    obtain ⟨_, _, accessed, builtAccess, builds, ⟨access, rfl, rfl⟩⟩ :=
      Build.member_makes method conditional
        (reworks.frame.stored stored) (StandsAll.append_iff.1 reworks.stands).1
    have reworks := reworks.next builds
    set anchor : Outline := .node access (.member receiver method conditional)
    obtain ⟨_, _, called, builtCall, builds, ⟨arguments, areArguments, place, rfl, rfl⟩⟩ :=
      @Build.invoke_makes accessed (some anchor) [new] (reworks.frame.stored stored) reworks.stands
    have reworks : Reworks wider start accessed (((some anchor).toList ++ [new]) ++ []) := by
      simpa using reworks
    have reworks := reworks.next builds
    obtain ⟨argument, isCall⟩ : ∃ argument : Place,
      (Term.node place (.invoke (some anchor) arguments) : Outline) =
        .node place (.invoke (some anchor) [.node argument (.argument .plain (some new))]) := by
      obtain ⟨argument, none, ⟨argument, rfl⟩, others, rfl⟩ :=
        List.forall₂_cons_left_iff.1 areArguments
      cases others
      exact ⟨argument, rfl⟩
    set call : Outline := .node place (.invoke (some anchor) arguments)
    have isCallOn : IsCallOn anchor new call := ⟨place, argument, isCall⟩
    obtain ⟨run, after, made, madeOthers, reworks, areForms, isRun⟩ :=
      @ih (some call) false called reworks (.inr rfl)
    refine ⟨run, after, new :: made, ?_, reworks, .cons isForm areForms, .inr ?_⟩
    · have builtCall : Build.invoke anchor.ref [new.ref] accessed = (call.ref, called) := builtCall
      rw [callEach, Change.bind_of_ok makes, Change.lift_bind, builtAccess, Change.lift_bind]
      exact (congrArg (fun built : Ref × Tree =>
        callEach method built.1 false functions built.2) builtCall).trans madeOthers
    · rcases isRun with ⟨rfl, same⟩ | ⟨outer, calls, isOuter, isRun⟩
      · cases others
        cases areForms
        obtain rfl := Option.some.inj same
        exact ⟨anchor, [], rfl, .first isCallOn⟩
      · obtain ⟨place, form⟩ := outer
        obtain rfl : form = _ := isOuter
        refine ⟨anchor, calls ++ [call], rfl, ?_⟩
        rw [List.reverse_cons, ← List.cons_append]
        exact isRun.onto isCallOn

end

/-- The parts of a call with a simple lambda stand apart within the call. -/
structure Stands (split : LambdaCall) (tree : Tree) (call : Outline)
    (receiver body : Option Outline)
    (param : Outline) : Prop where
  /-- The call is where it is said to be. -/
  isCall : split.call = call.ref
  /-- So is the receiver. -/
  isReceiver : split.called.receiver = refOf receiver
  /-- So is the body of the lambda. -/
  isBody : split.lambda.body = refOf body
  /-- So is its parameter. -/
  isParam : split.lambda.param = param.ref
  /-- The parameter is one. -/
  kind : ∃ type, tree.kind param.ref = .param type split.lambda.name
  /-- The parts stand apart. -/
  standing : tree.StandsAll (receiver.toList ++ (body.toList ++ [param]))
  /-- They lie within the call. -/
  within : (receiver.toList ++ (body.toList ++ [param])).flatMap refs ⊆ call.refs
  /-- The call passes the lambda to a member of the receiver. -/
  formed : ∃ access argument lambda, call.kind = .invoke (some access) [argument] ∧
    access.kind = .member receiver split.called.name split.called.conditional ∧
    argument.kind = .argument .plain (some lambda) ∧
    ∃ parenthesized, lambda.kind = .lambda [param] body parenthesized

/-- The parts of a call with a simple lambda stand apart. -/
theorem stands_of_form {tree : Tree} {split : LambdaCall}
    {call access argument lambda param : Outline}
    {receiver body : Option Outline} {parenthesized : Bool} (stands : tree.Stands call)
    (form : call.kind = .invoke (some access) [argument])
    (formArgument : argument.kind = .argument .plain (some lambda))
    (formAccess : access.kind = .member receiver split.called.name split.called.conditional)
    (formLambda : lambda.kind = .lambda [param] body parenthesized)
    (kind : ∃ type, tree.kind param.ref = .param type split.lambda.name)
    (isCall : split.call = call.ref)
    (isReceiver : split.called.receiver = refOf receiver) (isBody : split.lambda.body = refOf body)
    (isParam : split.lambda.param = param.ref) : split.Stands tree call receiver body param := by
  obtain ⟨standing, within⟩ := stands.calleeAndValue form formArgument
  have standsAccess := standing.each access (by simp)
  have standsLambda := standing.each lambda (by simp)
  have receiverChildren : access.children = receiver.toList := by
    simp [Term.children, formAccess, parts]
  have lambdaChildren : lambda.children = param :: body.toList := by
    simp [Term.children, formLambda, parts]
  have standsReceiver := standsAccess.children.1
  have standsParts := standsLambda.children.1
  rw [receiverChildren] at standsReceiver
  rw [lambdaChildren] at standsParts
  have withinAccess : receiver.toList.flatMap refs ⊆ access.refs := by
    rw [refs_eq access, innerRefs, receiverChildren]
    exact List.subset_cons_self _ _
  have withinLambda : (body.toList ++ [param]).flatMap refs ⊆ lambda.refs := by
    rw [refs_eq lambda, innerRefs, lambdaChildren]
    refine List.subset_cons_of_subset _ ?_
    exact ((List.perm_append_singleton param body.toList).flatMap_right refs).subset
  have standsParts := standsParts.perm (List.perm_append_singleton param body.toList).symm
  have narrowed := standing.narrow standsReceiver withinAccess
  have narrowed := (narrowed.perm List.perm_append_comm).narrow standsParts withinLambda
  refine ⟨isCall, isReceiver, isBody, isParam, kind, narrowed.perm List.perm_append_comm, ?_,
    access, argument, lambda, form, formAccess, formArgument, parenthesized, formLambda⟩
  rw [List.flatMap_append]
  refine List.append_subset.2 ⟨fun ref member => within ?_, fun ref member => within ?_⟩
  · simp [withinAccess member]
  · simp [withinLambda member]

/-- The parts of a call with a simple lambda that is found stand apart. -/
theorem stands_of_lambdaCall? {tree : Tree} {call : Outline} {split : LambdaCall}
    (stands : tree.Stands call)
    (found : tree.lambdaCall? call.ref = some split) :
    ∃ receiver body param, split.Stands tree call receiver body param := by
  simp only [lambdaCall?, Option.bind_eq_bind, Option.bind_eq_some_iff, Option.pure_def,
    Option.some.injEq] at found
  obtain ⟨value, isPassed, lambda, isLambda, called, isCalled, rfl⟩ := found
  obtain ⟨value, ⟨callee, argument, form, formArgument⟩, rfl⟩ :=
    singleArgument?_eq_some stands.shown isPassed
  obtain ⟨access, receiver, arguments, form', formAccess, -, isReceiver⟩ :=
    calledMember?_eq_some stands.shown isCalled
  obtain ⟨rfl, rfl⟩ : callee = some access ∧ arguments = [argument] := by
    rw [form] at form'
    cases form'
    exact ⟨rfl, rfl⟩
  obtain ⟨value, rfl⟩ : ∃ term, value = some term := by
    cases value with
    | none => cases isLambda
    | some term => exact ⟨term, rfl⟩
  have isArgument : argument ∈ call.children := by simp [Term.children, form, parts]
  have isValue : value ∈ argument.children := by simp [Term.children, formArgument, parts]
  obtain ⟨param, body, type, formLambda, kind, sameParam, isBody⟩ :=
    simpleLambda?_eq_some ((stands.shown.child isArgument).child isValue) isLambda
  exact ⟨receiver, body, param,
    stands_of_form stands form formArgument formAccess formLambda ⟨type, kind⟩ rfl isReceiver
    isBody sameParam⟩

/-- A call in a program is split into a run in its place. -/
theorem Stands.splitInto {split : LambdaCall} {tree : Tree} {whole call param : Outline}
    {receiver body : Option Outline} {functions : List (Change Ref)} {forms : List (Outline → Prop)}
    {scope : List Ref}
    (stands : split.Stands tree call receiver body param) (program : tree.IsProgram whole)
    (inside : call ∈ whole.subterms)
    (extends' : Extends tree functions forms (receiver.toList.flatMap refs) scope)
    (real : functions ≠ [])
    (within : ∀ ref ∈ whole.refs, ref ∈ scope → ref ∈ call.refs) :
    ∃ (after : Tree) (anchor run : Outline) (calls made : List Outline),
    split.splitInto functions tree = .ok ((), after) ∧
      after.IsProgram (Term.swap call.ref run whole) ∧
      anchor.kind = .member receiver split.called.name split.called.conditional ∧
      IsRun split.called.name anchor (run :: calls) made.reverse ∧
      List.Forall₂ (fun form function => form function) forms made ∧ Spares tree after whole call ∧
      ∀ ref ∈ run.refs, tree.HasRef ref → ref ∈ scope := by
  have standsReceiver := (StandsAll.append_iff.1 stands.standing).1
  have reworks : Reworks (receiver.toList.flatMap refs) tree tree receiver.toList :=
    .refl standsReceiver (List.Subset.refl _)
  obtain ⟨run, middle, made, changed, reworks, areForms, isRun⟩ :=
    @callEach_reworks tree functions forms _ scope
    split.called.name receiver split.called.conditional tree program.stored extends' reworks
      (.inl real)
  obtain ⟨anchor, calls, isAnchor, isRun⟩ := isRun.resolve_left fun none => real none.1
  obtain ⟨after, put, isProgram, spares, -⟩ := (reworks.prepares program within).put program inside
  refine ⟨after, anchor, run, calls, made, ?_, isProgram, isAnchor, isRun, areForms, spares,
    fun ref inside =>
    reworks.origin ref (by simpa using inside)⟩
  rw [← stands.isReceiver] at changed
  rw [LambdaCall.splitInto, Change.get_bind, Change.bind_of_ok changed, stands.isCall]
  exact put

/-- A lambda like that of a call, over a body, with a new parameter. -/
def IsLambdaOver (split : LambdaCall) (start : Tree) (param : Outline) (body : Option Outline)
    (lambda : Outline) : Prop :=
  ∃ place copy, ¬start.HasRef copy.ref ∧ copy.shape = param.shape ∧
    lambda = .node place (.lambda [copy] body split.lambda.parenthesized)

section

variable {split : LambdaCall} {start tree : Tree} {param : Outline} {scope : List Ref}
  (isParam : split.lambda.param = param.ref)
  (kind : ∃ type, start.kind param.ref = .param type split.lambda.name)
  (standsParam : start.Stands param) (apart : param.refs.Disjoint scope)

include isParam kind standsParam apart

/-- A lambda like that of the call is made of its body. -/
theorem lambdaOver_reworks {body : Option Outline} {others : List Outline} (stored : start.Stored)
    (reworks : Reworks scope start tree (body.toList ++ others)) :
    ∃ new after, split.lambdaOver (refOf body) tree = (Term.ref new, after) ∧
      Reworks scope start after (new :: others) ∧ split.IsLambdaOver start param body new := by
  obtain ⟨type, kind⟩ := kind
  have standsHere :=
    (reworks.apart (StandsAll.singleton_iff.2 standsParam) (by simpa using apart)).each param
    (.head _)
  have kindHere := (reworks.kind_eq (standsParam.hasRef (ref_mem_refs param))
    (apart (ref_mem_refs param))).trans kind
  obtain ⟨_, _, middle, copied, builds, copy, rfl, rfl, same⟩ :=
    Build.copyOfParam_makes (reworks.frame.stored stored) standsHere.shown standsHere.once kindHere
  have isNew : ¬start.HasRef copy.ref := fun isStored => by
    simpa using builds.origin copy.ref (by simp [ref_mem_refs]) (isStored.of_frame reworks.frame)
  have nothing : Reworks scope start tree ([] ++ (body.toList ++ others)) := reworks
  have reworks : Reworks scope start middle ((copy :: body.toList) ++ others) := nothing.next builds
  obtain ⟨_, _, after, made, builds, place, rfl, rfl⟩ :=
    Build.lambda_makes split.lambda.parenthesized
      (reworks.frame.stored stored) (StandsAll.append_iff.1 reworks.stands).1
  refine ⟨_, after, ?_, reworks.next builds, place, copy, isNew, same, rfl⟩
  rw [lambdaOver, isParam, Edit.bind_apply, copied]
  exact made

/-- Lambdas over operands that stand apart are made one after the other. -/
theorem extends_lambdaOver {operands : List (Option Outline)} (stored : start.Stored)
    (all : start.StandsAll (operands.flatMap Option.toList))
    (disjoint : ((operands.flatMap Option.toList).flatMap refs).Disjoint scope)
    (apartOperands : param.refs.Disjoint ((operands.flatMap Option.toList).flatMap refs)) :
    ∃ wider, Extends start (operands.map fun operand => split.lambdaOver (refOf operand))
      (operands.map (split.IsLambdaOver start param)) scope wider ∧
      wider ⊆ (operands.flatMap Option.toList).flatMap refs ++ scope := by
  induction operands generalizing scope with
  | nil => exact ⟨scope, .nil, List.subset_append_right _ _⟩
  | cons operand operands ih =>
    rw [List.flatMap_cons] at all
    rw [List.flatMap_cons, List.flatMap_append] at disjoint apartOperands
    obtain ⟨standsOperand, standing, apartOthers⟩ := StandsAll.append_iff.1 all
    obtain ⟨disjointOperand, disjointOthers⟩ := List.disjoint_append_left.1 disjoint
    obtain ⟨apartOperand, apartOperands⟩ := List.disjoint_append_right.1 apartOperands
    have apartBoth : param.refs.Disjoint (operand.toList.flatMap refs ++ scope) :=
      List.disjoint_append_right.2 ⟨apartOperand, apart⟩
    obtain ⟨wider, extends', within⟩ := ih apartBoth standing (List.disjoint_append_right.2
      ⟨fun _ here there => apartOthers there here, disjointOthers⟩) apartOperands
    refine ⟨wider, .cons (fun tree outputs reworks _ => ?_) extends', List.Subset.trans within ?_⟩
    · obtain ⟨new, after, made, reworks, isLambda⟩ :=
        lambdaOver_reworks isParam kind standsParam apartBoth stored
          (reworks.add standsOperand disjointOperand)
      exact ⟨new, after, congrArg Except.ok made, reworks, isLambda⟩
    · rw [List.flatMap_cons, List.flatMap_append, List.append_assoc]
      exact List.append_subset.2 ⟨fun ref member => by simp [member], List.append_subset.2
        ⟨fun ref member => by simp [member], fun ref member => by simp [member]⟩⟩

end

end LambdaCall

namespace Tree

open Term

section

variable {tree : Tree} {child : Option Outline}

/-- What is inside parentheses is found within the expression. -/
theorem stripParens_finds (all : tree.StandsAll child.toList) :
    ∃ inner, tree.stripParens (refOf child) = refOf inner ∧
    Finds child.toList tree tree inner.toList := by
  have within (bound : Nat) : ∃ inner, tree.stripParensWithin bound (refOf child) = refOf inner ∧
      Finds child.toList tree tree inner.toList := by
    induction bound generalizing child with
    | zero => exact ⟨child, rfl, .refl all⟩
    | succ bound ih =>
      rw [stripParensWithin]
      split
      · rename_i isParen
        obtain ⟨term, rfl⟩ := exists_of_kind isParen (by simp)
        have stands := all.each term (by simp)
        have depicts := stands.shown.here.depicts
        rw [show tree.kind term.ref = _ from isParen] at depicts
        obtain ⟨inner, form, rfl⟩ := depicts.paren
        have below := Finds.children stands
        rw [show term.children = inner.toList by simp [Term.children, form, parts]] at below
        obtain ⟨innermost, same, finds⟩ := ih below.stands
        exact ⟨innermost, same, below.trans finds⟩
      · exact ⟨child, rfl, .refl all⟩
  exact within _

/-- The operands of a conjunction stand apart within it. -/
theorem conjuncts_stand {child : Option Outline} (all : tree.StandsAll child.toList) :
    Finds child.toList tree tree ((conjunctsOf child).flatMap Option.toList) := by
  cases child with
  | none => exact .refl .nil
  | some term =>
    rw [conjunctsOf]
    induction term using Term.induction with
    | step place form ih =>
      have below := Finds.children (StandsAll.singleton_iff.1 all)
      rw [Term.conjuncts.eq_def]
      split
      · rename_i left right same
        cases same
        have side (child : Option Outline)
            (held : ∀ term ∈ child, term ∈ parts (.binary .and left right))
            (all : tree.StandsAll child.toList) :
            Finds child.toList tree tree ((conjunctsOf child).flatMap Option.toList) := by
          cases child with
          | none => exact .refl .nil
          | some term => exact ih term (held term rfl) all
        have same :
            (Term.node place (.binary .and left right)).children = left.toList ++ right.toList := by
          simp [Term.children, Term.kind, parts]
        rw [same] at below
        obtain ⟨standsLeft, standsRight, -⟩ := StandsAll.append_iff.1 below.stands
        rw [List.flatMap_append]
        exact below.trans ((side left (by simp +contextual [parts]) standsLeft).append
          (side right (by simp +contextual [parts]) standsRight) below.stands)
      · rename_i inner same
        cases same
        have same : (Term.node place (.paren inner)).children = inner.toList := by
          simp [Term.children, Term.kind, parts]
        rw [same] at below
        simpa using below
      · simpa using Finds.refl all

/-- The operands of a conjunction are those of the expression inside its parentheses, and they stand
apart within it. -/
theorem conjuncts_find (all : tree.StandsAll child.toList) :
    ∃ inner, tree.stripParens (refOf child) = refOf inner ∧ (∀ term ∈ inner, term.All tree.Shows) ∧
      tree.conjuncts (refOf child) = (conjunctsOf inner).map refOf ∧
      Finds child.toList tree tree ((conjunctsOf inner).flatMap Option.toList) := by
  obtain ⟨inner, same, finds⟩ := stripParens_finds all
  have shown : ∀ term ∈ inner, term.All tree.Shows := fun term inside =>
    (finds.stands.each term (by simpa using inside)).shown
  refine ⟨inner, same, shown, ?_, finds.trans (conjuncts_stand finds.stands)⟩
  rw [Tree.conjuncts, same]
  refine conjunctsWithin_eq shown ?_
  cases inner with
  | none => exact Nat.succ_le_succ (Nat.zero_le _)
  | some term =>
    exact Nat.le_trans term.length_conjuncts_le
      (Nat.succ_le_succ (StandsAll.singleton_iff.1 finds.stands).length_le)

end

end Tree

namespace LambdaCall

open Term Refactory.Tree

/-- A filter in a program is split into a run of filters, one over each operand of its
conjunction. -/
theorem Stands.splitOperands {split : LambdaCall} {tree : Tree} {whole call param : Outline}
    {receiver body : Option Outline} {operands : List Ref}
    (stands : split.Stands tree call receiver body param)
    (program : tree.IsProgram whole) (within : call ∈ whole.subterms)
    (isOperands : tree.splitOperands? split = some operands) :
    ∃ (inner : Option Outline) (after : Tree) (anchor run : Outline) (calls made : List Outline),
      tree.stripParens (refOf body) = refOf inner ∧ (∀ term ∈ inner, term.All tree.Shows) ∧
      operands = (conjunctsOf inner).map refOf ∧ 2 ≤ operands.length ∧
      split.splitInto (operands.map (split.lambdaOver ·)) tree = .ok ((), after) ∧
      after.IsProgram (Term.swap call.ref run whole) ∧
      anchor.kind = .member receiver split.called.name split.called.conditional ∧
      IsRun split.called.name anchor (run :: calls) made.reverse ∧
      List.Forall₂ (split.IsLambdaOver tree param) (conjunctsOf inner) made ∧ param.ref ∉ run.refs ∧
      Spares tree after whole call := by
  obtain ⟨standsReceiver, standsRest, apart⟩ := StandsAll.append_iff.1 stands.standing
  obtain ⟨standsBody, standsParam, apartParam⟩ := StandsAll.append_iff.1 standsRest
  obtain ⟨inner, strips, shown, conjuncts, finds⟩ := conjuncts_find standsBody
  rw [splitOperands?, stands.isBody, conjuncts] at isOperands
  obtain ⟨two, rfl⟩ : 2 ≤ (conjunctsOf inner).length ∧
    (conjunctsOf inner).map refOf = operands := by
    simpa [Option.filter] using isOperands
  have inBody {ref : Ref}
      (inside : ref ∈ ((conjunctsOf inner).flatMap Option.toList).flatMap refs) :
      ref ∈ body.toList.flatMap refs := finds.origin ref inside (finds.stands.hasRef inside)
  obtain ⟨scope, extends', inScope⟩ : ∃ scope, Extends tree
      ((conjunctsOf inner).map fun operand => split.lambdaOver (refOf operand))
      ((conjunctsOf inner).map (split.IsLambdaOver tree param))
      (receiver.toList.flatMap refs) scope ∧ scope ⊆
      ((conjunctsOf inner).flatMap Option.toList).flatMap refs ++ receiver.toList.flatMap refs :=
    extends_lambdaOver stands.isParam stands.kind (StandsAll.singleton_iff.1 standsParam)
      (fun ref here there => apart there (by simp [here])) program.stored finds.stands
      (fun ref here there => apart there (by simp [inBody here]))
      (fun ref here there => apartParam (inBody there) (by simpa using here))
  have same :
      (conjunctsOf inner).map (fun operand => (split.lambdaOver (refOf operand) : Change Ref)) =
      ((conjunctsOf inner).map refOf).map fun operand =>
      (split.lambdaOver operand : Change Ref) := by
    rw [List.map_map]
    rfl
  rw [same] at extends'
  obtain ⟨after, anchor, run, calls, made, changed, isProgram, isAnchor, isRun, areForms, spares,
    origin⟩ :=
    stands.splitInto program within extends' (fun none => by
      rw [List.map_eq_nil_iff, List.map_eq_nil_iff] at none
      rw [none] at two
      cases two) fun ref _ inside => stands.within (by
        have inside := inScope inside
        simp only [List.flatMap_append, List.mem_append] at inside ⊢
        exact inside.elim (fun inside => .inr (.inl (inBody inside))) .inl)
  refine ⟨inner, after, anchor, run, calls, made, strips, shown,
    rfl, by simpa using two, changed, isProgram, isAnchor,
    isRun, by rwa [List.forall₂_map_left_iff] at areForms, fun inside => ?_, spares⟩
  have hasParam := (StandsAll.singleton_iff.1 standsParam).hasRef (ref_mem_refs param)
  rcases List.mem_append.1 (inScope (origin _ inside hasParam)) with here | here
  · exact apartParam (inBody here) (by simp [ref_mem_refs])
  · exact apart here (by simp [ref_mem_refs])

end LambdaCall

namespace Context

open Term Refactory.Tree

/-- The calls with a simple lambda in a program stand in it. -/
theorem stands_of_mem_lambdaCalls {whole : Outline} {ref : Ref} {method : String}
    {split : LambdaCall} (program : context.tree.IsProgram whole) (member : ref ∈ whole.refs)
    (found : split ∈ context.lambdaCalls method ref) :
    ∃ call ∈ whole.subterms, call.ref ∈ context.tree.descendants (context.tree.statementOf ref) ∧
      ∃ receiver body param, split.Stands context.tree call receiver body param := by
  obtain ⟨call, isCall, found⟩ := List.mem_filterMap.1 found
  have below := List.mem_of_mem_filter isCall
  obtain ⟨part, within, rfl⟩ :=
    mem_refs.1 (program.descendants_subset (program.statementOf_mem member) below)
  exact ⟨part, within, below,
    LambdaCall.stands_of_lambdaCall? (program.stands.subterm within) found⟩

/-- Splitting a filter around a node of a program puts a run in the place of a call in the statement
of the node. -/
theorem splitFilter_puts {whole : Outline} {ref : Ref}
    (program : context.tree.IsProgram whole) (member : ref ∈ whole.refs) :
    Attempt.Gives (context.splitFilter ref) (Offers fun result =>
      ∃ call run, call.ref ∈ context.tree.descendants (context.tree.statementOf ref) ∧
      (∃ access arguments, call.kind = .invoke access arguments) ∧
        context.tree.Places result whole call run) := by
  rw [splitFilter]
  split
  · exact Attempt.refuse_offers _
  · rename_i split operands found
    obtain ⟨other, isCall, isSplit⟩ := List.exists_of_findSome?_eq_some found
    obtain ⟨operands', isOperands, same⟩ := Option.map_eq_some_iff.1 isSplit
    obtain ⟨rfl, rfl⟩ := Prod.mk.inj same
    obtain ⟨call, within, below, receiver, body, param, stands⟩ :=
      stands_of_mem_lambdaCalls program member isCall
    obtain ⟨_, after, _, run, _, _, -, -, -, -, changed, isProgram, -, -, -, -, spares⟩ :=
      stands.splitOperands program within isOperands
    obtain ⟨access, argument, _, form, -⟩ := stands.formed
    exact offer_offers ⟨after, changed, call, run, below, ⟨_, _, form⟩, within, isProgram, spares⟩

/-- Splitting a filter around a node of a program gives a program where it is offered. -/
theorem splitFilter_gives {whole : Outline} {ref : Ref}
    (program : context.tree.IsProgram whole) (member : ref ∈ whole.refs) :
    Attempt.Gives (context.splitFilter ref) OffersProgram := by
  refine (splitFilter_puts program member).mono fun offered offers action isOffered => ?_
  obtain ⟨_, _, -, -, puts⟩ := offers action isOffered
  exact ⟨_, puts.program⟩

end Context

end Refactory
