import Refactory.Proofs.Code.Interpretation
import Refactory.Proofs.Refactoring.Preservation

/-!
# Inverting quantifiers keeps the meaning

Under every interpretation the program, and the statement in which a quantifier is inverted, mean
the same afterwards as before (`Context.inverting_keeps_meaning`). The dual of the call means the
opposite of the call (`Interpretation.exists_truth`), and what comes in the place of the call, or of
its negation, means the opposite of that.

The receiver of the call must not be null. Nothing is said of the effects of code, or of how often
it runs.
-/
namespace Refactory

open Term Refactory.Tree

namespace Interpretation

variable {Env Value Element : Type} {meanings : Interpretation Env Value Element}

/-- The negation of the body of a predicate holds where the body does not. -/
theorem holds_of_negates {body : Outline} {new : Option Outline} (negates : Negates body new)
    (env : Env) :
    meanings.Holds (meanings.meaning? new env) ↔ ¬ meanings.Holds (meanings.meaning body env) := by
  cases negates with
  | drop form => rw [meanings.meaning_of_not form, meanings.holds_ofProp, not_not]
  | unwrap form formWrapped =>
    rw [meanings.meaning_of_not form, meanings.holds_ofProp, not_not, meaning?_some,
      meanings.meaning_of_paren formWrapped]
  | compare place form opposed =>
    rw [meaning?_some, meanings.meaning_of_kind form, meanings.meaning_eq]
    exact meanings.opposite opposed _ _ env
  | add place reading =>
    rw [meaning?_some, meanings.meaning_of_not rfl, meanings.holds_ofProp, meaning?_some]

/-- A call of a quantifier says of the elements of its receiver what the body says of each. -/
theorem meaning_of_quantifies {quantifier : Quantifier}
    {term access argument lambda param : Outline}
    {receiver body : Option Outline} {conditional parenthesized : Bool}
    (quantifies : Quantifies quantifier term access argument lambda param receiver body conditional
      parenthesized)
    {env : Env} (nonNull : ¬ meanings.IsNull (meanings.meaning? receiver env)) :
    meanings.meaning term env =
    meanings.ofProp (quantifier.Says (meanings.Contains (meanings.meaning? receiver env))
      fun element => meanings.Holds
        (meanings.meaning? body (meanings.bind (meanings.meaning param) env element))) := by
  have form : meanings.meaning term = meanings.node (.invoke
      (some (meanings.node (.member (receiver.map meanings.meaning) quantifier.method conditional)))
      [meanings.node (.argument .plain (some (meanings.node
        (.lambda [meanings.meaning param] (body.map meanings.meaning) parenthesized))))]) := by
    rw [meanings.meaning_of_kind quantifies.form]
    simp [meanings.meaning_of_kind quantifies.formAccess, meanings.meaning_of_kind
      quantifies.formArgument, meanings.meaning_of_kind quantifies.formLambda]
  rw [form, meanings.quantifier _ _ _ _ _ nonNull]
  simp only [meanings.lambda]
  rfl

/-- A call of a quantifier has a truth for its value, and its dual has the opposite. -/
theorem exists_truth {quantifier : Quantifier} {receiver : Option Outline} {term dual : Outline}
    (dualizes : Dualizes quantifier receiver term dual)
    (nonNull : ∀ env, ¬ meanings.IsNull (meanings.meaning? receiver env)) :
    ∃ truth : Env → Prop, ∀ env, meanings.meaning term env = meanings.ofProp (truth env) ∧
      meanings.meaning dual env = meanings.ofProp (¬ truth env) := by
  obtain ⟨-, before, after, negates⟩ := dualizes
  refine ⟨_, fun env => ⟨meaning_of_quantifies before (nonNull env), ?_⟩⟩
  rw [meaning_of_quantifies after (nonNull env)]
  exact congrArg meanings.ofProp
    (propext (quantifier.says_dual fun element => holds_of_negates negates _))

/-- A term in parentheses means what comes in its place. -/
theorem meaning_swap_of_wraps {term around : Outline} (wraps : Wraps term around)
    (once : around.refs.Nodup)
    (new : Outline) : meanings.meaning (swap term.ref new around) = meanings.meaning new := by
  induction wraps with
  | bare => rw [swap_self]
  | @paren around outer form wraps ih =>
    have isChild : around ∈ outer.children := by simp [Term.children, form, Term.parts]
    have other := ref_ne_of_child once isChild wraps.mem_subterms
    have formSwapped :
        (swap term.ref new outer).kind = .paren (some (swap term.ref new around)) := by
      rw [kind_swap_of_ne other, form]
      rfl
    rw [meanings.meaning_of_paren formSwapped, meaning?_some]
    exact ih (once.sublist (refs_sublist (child_mem_subterms isChild)))

/-- What comes in the place of a call or its negation means what was there before the call became
its dual. -/
theorem meaning_of_negatesCall {term dual target new : Outline} {truth : Env → Prop}
    (negates : NegatesCall dual target new) (once : target.refs.Nodup)
    (isTruth : ∀ env, meanings.meaning term env = meanings.ofProp (truth env) ∧
      meanings.meaning dual env = meanings.ofProp (¬ truth env)) :
    meanings.meaning (swap dual.ref term target) = meanings.meaning new := by
  have negated {operand : Option Outline} {outer : Outline}
      (same : meanings.meaning? operand = meanings.meaning dual)
      (form : outer.kind = .unary .not operand) :
      meanings.meaning outer = meanings.meaning term := by
    funext env
    rw [meanings.meaning_of_not form, same, (isTruth env).1, (isTruth env).2,
      meanings.holds_ofProp, not_not]
  cases negates with
  | @remove around target wraps form =>
    have isChild : around ∈ target.children := by simp [Term.children, form, Term.parts]
    have other := ref_ne_of_child once isChild wraps.mem_subterms
    have formSwapped :
        (swap dual.ref term target).kind = .unary .not (some (swap dual.ref term around)) := by
      rw [kind_swap_of_ne other, form]
      rfl
    have same := @meaning_swap_of_wraps _ _ _ meanings _ _ wraps
      (once.sublist (refs_sublist (child_mem_subterms isChild))) term
    funext env
    rw [meanings.meaning_of_not formSwapped, meaning?_some, same, (isTruth env).1, (isTruth env).2,
      meanings.holds_ofProp]
  | add place =>
    rw [swap_self]
    exact (@negated (some dual) _ rfl rfl).symm
  | wrap place outer =>
    have inner : meanings.meaning (.node place (.unary .not (some dual)) : Outline)
        = meanings.meaning term := @negated (some dual) _ rfl rfl
    rw [swap_self, ← inner]
    exact (@meaning_of_paren _ _ _ _ meanings (.node outer (.paren (some _))) _ rfl).symm

end Interpretation

/-- Between a call and the negation of it that is removed are parentheses alone. -/
theorem NegatesCall.not_isStatement {dual target new part : Outline}
    (negates : NegatesCall dual target new)
    (isCall : dual.kind.isStatement = false) (inside : part ∈ target.subterms)
    (around : dual ∈ part.subterms) :
    part.kind.isStatement = false := by
  have isDual (inside : part ∈ dual.subterms) : part.kind.isStatement = false :=
    eq_of_mem_subterms inside around ▸ isCall
  have between {outer : Outline} (wraps : Wraps dual outer) (inside : part ∈ outer.subterms) :
      part.kind.isStatement = false := by
    induction wraps with
    | bare => exact isDual inside
    | paren form _ ih =>
      rw [subterms_eq] at inside
      rcases List.mem_cons.1 inside with rfl | inside
      · rw [form]
        rfl
      · exact ih (by simpa [Term.children, form, Term.parts] using inside)
  cases negates with
  | remove wraps form =>
    rw [subterms_eq] at inside
    rcases List.mem_cons.1 inside with rfl | inside
    · rw [form]
      rfl
    · exact between wraps (by simpa [Term.children, form, Term.parts] using inside)
  | add => exact isDual inside
  | wrap => exact isDual inside

/-- What the parts around an inverted call become, and that they mean the same as before. A
statement around the call stays where it is. -/
theorem Inverts.meaning_eq {Env Value Element : Type} {meanings : Interpretation Env Value Element}
    {quantifier : Quantifier} {receiver : Option Outline} {whole term after : Outline}
    (inverts : Inverts quantifier receiver whole term after) (once : whole.refs.Nodup)
    (nonNull : ∀ env, ¬ meanings.IsNull (meanings.meaning? receiver env)) :
    meanings.meaning after = meanings.meaning whole ∧
      ∀ statement ∈ whole.subterms, term ∈ statement.subterms → statement.kind.isStatement →
        ∃ new ∈ after.subterms, new.ref = statement.ref ∧
        meanings.meaning new = meanings.meaning statement := by
  obtain ⟨within, dualizes, onceDual, isTarget, below, negates⟩ := inverts
  rename_i dual target new
  obtain ⟨truth, isTruth⟩ := Interpretation.exists_truth dualizes nonNull
  have same : dual.ref = term.ref := by
    obtain ⟨same, -, -, -⟩ := dualizes
    exact same
  have onceTarget := onceDual.sublist (refs_sublist isTarget)
  have around {outer : Outline} (isOuter : outer ∈ whole.subterms) (inside : term ∈ outer.subterms)
      (onceOuter : (swap term.ref dual outer).refs.Nodup)
      (isTarget : target ∈ (swap term.ref dual outer).subterms) :
      meanings.meaning (swap target.ref new (swap term.ref dual outer))
        = meanings.meaning outer := by
    have onceBefore := once.sublist (refs_sublist isOuter)
    calc meanings.meaning (swap target.ref new (swap term.ref dual outer))
      _ =
        meanings.meaning (swap target.ref (swap dual.ref term target) (swap term.ref dual outer)) :=
        Interpretation.meaning_swap_congr
          (Interpretation.meaning_of_negatesCall negates onceTarget isTruth).symm _ _
      _ = meanings.meaning (swap dual.ref term (swap term.ref dual outer)) := by
        rw [← swap_within onceOuter isTarget below]
      _ = meanings.meaning outer := by
        rw [same, swap_swap onceBefore inside (self_mem_subterms term) same,
          swap_eq_self onceBefore inside]
  refine ⟨around (self_mem_subterms whole) within onceDual isTarget,
    fun statement isPart inside isStatement => ?_⟩
  have isCall : dual.kind.isStatement = false ∧ term.kind.isStatement = false := by
    obtain ⟨-, before, after, -⟩ := dualizes
    rw [before.form, after.form]
    exact ⟨rfl, rfl⟩
  have onceStatement := once.sublist (refs_sublist isPart)
  have other : statement.ref ≠ term.ref := fun here => by
    obtain rfl := subterm_unique once isPart within here
    rw [isCall.2] at isStatement
    cases isStatement
  have changedWithin := @swap_mem_subterms dual _ _ once _ isPart inside
  have dualWithin := @mem_subterms_swap dual _ _ onceStatement inside
  have remains : (swap term.ref dual statement).kind.isStatement = true := by
    rw [kind_swap_of_ne other]
    exact (Kind.isStatement_of_skeleton (Kind.skeleton_withSlots ..)).trans isStatement
  -- The negation that is removed lies within the statement, since between it and the call are no
  -- statements.
  have isBelow : target ∈ (swap term.ref dual statement).subterms := by
    refine (subterms_comparable onceDual changedWithin isTarget dualWithin below).resolve_left
      fun inTarget => ?_
    rw [negates.not_isStatement isCall.1 inTarget dualWithin] at remains
    cases remains
  have apart : (swap term.ref dual statement).ref ≠ target.ref := fun here => by
    rw [subterm_unique onceDual changedWithin isTarget here,
      negates.not_isStatement isCall.1 (self_mem_subterms target) below] at remains
    cases remains
  exact ⟨_, swap_mem_subterms onceDual changedWithin isBelow, (ref_swap_of_ne apart).trans
    (ref_swap same), around isPart inside (onceDual.sublist (refs_sublist changedWithin)) isBelow⟩

/-- Under every interpretation, the program and the statement in which a quantifier is inverted mean
the same afterwards as before, where the receiver of the call is not null. The statement is still
there. -/
theorem Context.inverting_keeps_meaning {Env Value Element : Type}
    (meanings : Interpretation Env Value Element)
    {context : Context} {ref : Ref} {action : Action} (wellFormed : context.tree.WellFormed)
    (member : ref ∈ context.tree.attached)
    (offered : context.offered? .invertQuantifier ref = .ok (some action))
    (nonNull : ∀ call called, (context.tree.descendants (context.tree.statementOf ref)).findSome?
        context.tree.quantifierCall? = some call →
      context.tree.calledMember? call.call = some called →
      ∀ env, ¬ meanings.IsNull (meanings.meaningAt context.tree called.receiver env)) :
    meanings.meaningAt action.result action.result.root =
    meanings.meaningAt context.tree context.tree.root ∧
      ((context.tree.kind (context.tree.statementOf ref)).isStatement →
        context.tree.statementOf ref ∈ action.result.attached ∧
        meanings.meaningAt action.result (context.tree.statementOf ref) =
          meanings.meaningAt context.tree (context.tree.statementOf ref)) := by
  obtain ⟨whole, program⟩ := wellFormed_iff.1 wellFormed
  rw [program.attached] at member
  obtain ⟨call, receiver, term, middle, target, new, found, isCall, below, invertsIn⟩ := @of_offered
    context .invertQuantifier ref action _ (invertQuantifier_offers program member).yields offered
  obtain ⟨isProgram, inverts⟩ := invertsIn.inverts
  have isNonNull (env : Env) : ¬ meanings.IsNull (meanings.meaning? receiver env) := by
    obtain ⟨access, arguments, name, conditional, form, formAccess⟩ := inverts.calls
    have standsTerm := program.stands.subterm inverts.within
    have isCalled := calledMember?_of_form standsTerm.shown form formAccess
    have isAccess : access ∈ term.children := by simp [Term.children, form, Term.parts]
    have standsReceiver := (standsTerm.subterm (child_mem_subterms isAccess)).children.1
    rw [show access.children
      = receiver.toList by simp [Term.children, formAccess, Term.parts]] at standsReceiver
    rw [← Interpretation.meaningAt_of_standsAll standsReceiver]
    exact nonNull call _ found (isCall ▸ isCalled) env
  obtain ⟨same, around⟩ := inverts.meaning_eq program.stands.once isNonNull
  refine ⟨?_, fun isStatement => ?_⟩
  · rw [← isProgram.root, ← program.root, Interpretation.meaningAt_of_stands isProgram.stands,
      Interpretation.meaningAt_of_stands program.stands, same]
  · obtain ⟨statement, within, isRef⟩ := mem_refs.1 (program.statementOf_mem member)
    have standsStatement := program.stands.subterm within
    rw [← isRef, standsStatement.descendants] at below
    rw [← isRef,
      Kind.isStatement_of_skeleton standsStatement.shown.here.depicts.skeleton] at isStatement
    obtain ⟨part, inside, isTerm⟩ := mem_refs.1 below
    obtain rfl : part = term :=
      subterm_unique program.stands.once (subterms_trans within inside) inverts.within isTerm
    obtain ⟨new, isNew, sameRef, sameMeaning⟩ := around statement within inside isStatement
    rw [← isRef, isProgram.attached]
    refine ⟨mem_refs.2 ⟨new, isNew, sameRef⟩, ?_⟩
    rw [Interpretation.meaningAt_of_stands standsStatement, ← sameMeaning, ← sameRef,
      Interpretation.meaningAt_of_stands (isProgram.stands.subterm isNew)]

namespace Counting

/-- Values of code about numbers, each of which stands for the collection of the numbers below
it. -/
inductive Value where
  /-- No value. -/
  | null
  /-- A truth. -/
  | truth (holds : Prop)
  /-- A number. -/
  | number (value : Nat)
  /-- A function of numbers. -/
  | function (result : Nat → Value)
  /-- A member of a value. -/
  | member (receiver : Value) (name : String)
  /-- The name of a parameter. -/
  | param (name : String)

/-- The truths that hold. -/
def Value.Holds : Value → Prop
  | truth holds => holds
  | _ => False

/-- How many numbers are below a number. -/
def Value.count : Value → Nat
  | number value => value
  | _ => 0

/-- What a function gives for a number. -/
def Value.apply : Value → Nat → Value
  | function result, element => result element
  | _, _ => null

/-- How numbers compare. -/
def compares (op : BinaryOp) (left right : Nat) : Prop :=
  match op with
  | .eq => left = right
  | .notEq => left ≠ right
  | .lt => left < right
  | .gtEq => right ≤ left
  | .gt => right < left
  | .ltEq => left ≤ right
  | _ => False

/-- The numbers of the variables where one of them is another. -/
def bind (param : (String → Nat) → Value) (env : String → Nat) (element : Nat) : String → Nat :=
  match param env with
  | .param name => Function.update env name element
  | _ => env

/-- What code means where variables are numbers. -/
def node (kind : Kind (Option ((String → Nat) → Value)) (List ((String → Nat) → Value)))
    (env : String → Nat) :
    Value :=
  let value (child : Option ((String → Nat) → Value)) (env : String → Nat) : Value :=
    child.getD (fun _ => .null) env
  match kind with
  | .ident name => .number (env name)
  | .paren inner => value inner env
  | .unary .not operand => .truth (¬ (value operand env).Holds)
  | .binary op left right => .truth (compares op (value left env).count (value right env).count)
  | .param _ name => .param name
  | .lambda [param] body _ => .function fun element => value body (bind param env element)
  | .argument _ passed => value passed env
  | .member receiver name _ => .member (value receiver env) name
  | .invoke (some callee) [passed] =>
    match callee env with
    | .member receiver name =>
      match Quantifier.ofMethod? name with
      | some quantifier => .truth
        (quantifier.Says (· < receiver.count) fun element => ((passed env).apply element).Holds)
      | none => .null
    | _ => .null
  | _ => .null

/-- Quantifiers over the numbers below a number. -/
def meanings : Interpretation (String → Nat) Value Nat where
  node := node
  absent _ := .null
  ofProp := .truth
  Holds := Value.Holds
  IsNull value := value = .null
  Contains value element := element < value.count
  apply := Value.apply
  bind := bind
  holds_ofProp := Iff.rfl
  paren _ _ := rfl
  not _ _ := rfl
  opposite {op other} opposed left right env := by
    cases op <;> obtain ⟨⟩ := opposed <;> simp [node, Value.Holds, compares]
  lambda _ _ _ _ _ := rfl
  quantifier quantifier _ _ _ _ _ := by cases quantifier <;> rfl

end Counting

/-- Inverting a quantifier over a variable, under a negation and with a negated predicate, keeps the
meaning. -/
theorem inverting_negated_keeps_meaning : ∃ tree action,
    Tree.parse 0 "var q = !(xs.All(x => !(x == y)));" = .ok tree ∧
      (Context.ofTree tree {}).offered? .invertQuantifier (some 5) = .ok (some action) ∧
      Counting.meanings.meaningAt action.result action.result.root
        = Counting.meanings.meaningAt tree tree.root ∧
      tree.statementOf (some 5) = some 15 ∧ some 15 ∈ action.result.attached ∧
      Counting.meanings.meaningAt action.result (some 15)
        = Counting.meanings.meaningAt tree (some 15) := by
  have offers : ((Tree.parse 0 "var q = !(xs.All(x => !(x == y)));").toOption.any fun tree =>
      some 5 ∈ tree.attached && tree.statementOf (some 5)
        = some 15 && (tree.kind (some 15)).isStatement &&
        ((tree.descendants (some 15)).findSome? tree.quantifierCall?).all (fun call =>
          (tree.calledMember? call.call).all fun called => called.receiver = some 1) &&
        (tree.outline (some 1)).kind.skeleton = .ident "xs" &&
        ((Context.ofTree tree {}).offered? .invertQuantifier (some 5)).toOption.any (·.isSome))
        = true := by
    decide +kernel
  obtain ⟨tree, parsed, offers⟩ := (Option.any_eq_true _ _).1 offers
  simp only [Bool.and_eq_true, decide_eq_true_eq, Option.all_eq_true] at offers
  obtain ⟨⟨⟨⟨⟨member, isPlace⟩, isStatement⟩, isReceiver⟩, isIdent⟩, offers⟩ := offers
  obtain ⟨offered, isOffered, isSome⟩ := (Option.any_eq_true _ _).1 offers
  obtain ⟨action, rfl⟩ := Option.isSome_iff_exists.1 isSome
  replace parsed := Context.eq_ok_of_toOption parsed
  replace isOffered := Context.eq_ok_of_toOption isOffered
  obtain ⟨same, around⟩ :=
    @Context.inverting_keeps_meaning _ _ _ Counting.meanings (.ofTree tree {}) _ action
      (wellFormed_of_parse parsed) member isOffered fun call called found isCalled env isNull => by
        rw [show (Context.ofTree tree {}).tree = tree from rfl, isPlace] at found
        rw [isReceiver call found called isCalled] at isNull
        replace isNull : Counting.meanings.meaning (tree.outline (some 1)) env = .null := isNull
        generalize form : (tree.outline (some 1)).kind = kind at isIdent
        cases kind <;> cases isIdent
        rw [Counting.meanings.meaning_of_kind form] at isNull
        cases isNull
  rw [show (Context.ofTree tree {}).tree = tree from rfl, isPlace] at around
  obtain ⟨stays, sameStatement⟩ := around isStatement
  exact ⟨tree, action, parsed, isOffered, same, isPlace, stays, sameStatement⟩

end Refactory
