import Refactory.Proofs.Tree.Rereading

/-!
# How operands bind

In the tree of a source text each operand holds together at least as tightly as its operator asks
for, so that no parentheses are missing (`Tree.bindsByPrecedence_of_parse`). What the tree says of
this is read off the kinds of two nodes, one above the other, and the precedences of their
operators (`Tree.BindsByPrecedence`). The grammar says it with levels, of which operators in front,
operators behind and everything without an operator have one each above all precedences
(`Kind.level`).
-/
namespace Refactory

variable {kind : NodeKind}

namespace Kind

variable {one many one' many' : Type}

/-- The operator of a binary operation. -/
def binaryOp? : Kind one many → Option BinaryOp
  | binary op _ _ => some op
  | _ => none

/-- Whether a kind is an assignment. -/
def isAssign : Kind one many → Bool
  | assign _ _ _ => true
  | _ => false

/-- Whether a kind is a lambda. -/
def isLambda : Kind one many → Bool
  | lambda _ _ _ => true
  | _ => false

/-- Whether a kind is an operation with the operator in front. -/
def isLeading : Kind one many → Bool
  | unary op _ => !op.isPostfix
  | _ => false

/-- How tightly what is of a kind holds together. -/
def level : Kind one many → Nat
  | lambda _ _ _ | assign _ _ _ => 0
  | binary op _ _ => op.precedence
  | unary op _ => if op.isPostfix then Shape.postfixLevel else Shape.prefixLevel
  | _ => Shape.postfixLevel

/-- The level of a kind does not depend on its children. -/
theorem level_eq_of_skeleton {kind : Kind one many} {other : Kind one' many'}
    (same : kind.skeleton = other.skeleton) : kind.level = other.level :=
  eq_of_skeleton (fun kind => kind.level) (fun kind => by cases kind <;> rfl) same

/-- How tightly the first child of a node of a kind must hold together, where the kind is that of an
operator, a member, a call or an element access. -/
def demand : Kind one many → Nat
  | binary op _ _ => if op = .coalesce then op.precedence + 1 else op.precedence
  | unary op _ => if op.isPostfix then Shape.postfixLevel else Shape.prefixLevel
  | member _ _ _ | invoke _ _ | index _ _ => Shape.postfixLevel
  | assign _ _ _ => BinaryOp.coalesce.precedence
  | _ => 0

/-- What a kind demands does not depend on its children. -/
theorem demand_eq_of_skeleton {kind : Kind one many} {other : Kind one' many'}
    (same : kind.skeleton = other.skeleton) : kind.demand = other.demand :=
  eq_of_skeleton (fun kind => kind.demand) (fun kind => by cases kind <;> rfl) same

/-- What is no assignment and no lambda is above the lowest level. -/
theorem level_eq_zero {kind : Kind one many} (loose : kind.isAssign ∨ kind.isLambda) :
    kind.level = 0 := by
  cases kind <;> simp_all [isAssign, isLambda, level]

/-- A lambda is no assignment. -/
theorem isAssign_eq_false_of_isLambda {kind : Kind one many} (lambda : kind.isLambda) :
    kind.isAssign = false := by
  cases kind <;> simp_all [isAssign, isLambda]

/-- A binary operation has the level of its operator. -/
theorem level_of_binaryOp? {kind : Kind one many} {op : BinaryOp}
    (isBinary : kind.binaryOp? = some op) :
    kind.level = op.precedence := by
  cases kind <;> simp_all [binaryOp?, level]

/-- An operator in front gives the level below the tightest one. -/
theorem level_of_isLeading {kind : Kind one many} (leading : kind.isLeading) :
    kind.level = Shape.prefixLevel := by
  cases kind <;> simp_all [isLeading, level]

end Kind

/-- Every binary operator binds, and less tightly than an operator in front. -/
theorem BinaryOp.precedence_bounds
    (op : BinaryOp) : 0 < op.precedence ∧ op.precedence < Shape.prefixLevel := by
  cases op <;> decide

/-- The level of a shape is that of its kind. -/
theorem Shape.level_eq (shape : Shape) : Shape.level shape = shape.kind.level := by
  rcases shape with ⟨note, form⟩
  cases form <;> rfl

namespace Tree

open Term

/-- Every operand in a tree binds as the precedence of the operator above it says. -/
structure BindsByPrecedence (tree : Tree) : Prop where
  /-- To the left of an operator that associates to the left, a binary operation binds at least as
  tightly. -/
  left : ∀ {ref left right : Ref} {op inner : BinaryOp}, ref ∈ tree.attached →
    tree.kind ref = .binary op left right → op ≠ .coalesce →
    (tree.kind left).binaryOp? = some inner → op.precedence ≤ inner.precedence
  /-- To the right of it, it binds more tightly. -/
  right : ∀ {ref left right : Ref} {op inner : BinaryOp}, ref ∈ tree.attached →
    tree.kind ref = .binary op left right → op ≠ .coalesce →
    (tree.kind right).binaryOp? = some inner → op.precedence < inner.precedence
  /-- To the left of the coalescing operator, a binary operation binds more tightly. -/
  coalesceLeft : ∀ {ref left right : Ref} {inner : BinaryOp}, ref ∈ tree.attached →
    tree.kind ref = .binary .coalesce left right →
    (tree.kind left).binaryOp? = some inner → BinaryOp.coalesce.precedence < inner.precedence
  /-- To the right of it, it binds at least as tightly. -/
  coalesceRight : ∀ {ref left right : Ref} {inner : BinaryOp}, ref ∈ tree.attached →
    tree.kind ref = .binary .coalesce left right →
    (tree.kind right).binaryOp? = some inner → BinaryOp.coalesce.precedence ≤ inner.precedence
  /-- No operand of a binary operation is an assignment. -/
  noAssign : ∀ {ref left right : Ref} {op : BinaryOp}, ref ∈ tree.attached →
    tree.kind ref = .binary op left right →
    (tree.kind left).isAssign = false ∧ (tree.kind right).isAssign = false
  /-- Only the right operand of the coalescing operator may be a lambda. -/
  noLambda : ∀ {ref left right : Ref} {op : BinaryOp}, ref ∈ tree.attached →
    tree.kind ref = .binary op left right →
    (tree.kind left).isLambda = false ∧ (op ≠ .coalesce → (tree.kind right).isLambda = false)
  /-- The operand of an operator in front is no binary operation, assignment or lambda. -/
  leading : ∀ {ref operand : Ref} {op : UnaryOp}, ref ∈ tree.attached →
    tree.kind ref = .unary op operand → op.isPostfix = false →
    (tree.kind operand).binaryOp? = none ∧ (tree.kind operand).isAssign = false ∧
      (tree.kind operand).isLambda = false
  /-- What a member, a call, an element access or an operator behind applies to has no operator in
  front either. -/
  tight : ∀ {ref operand : Ref}, ref ∈ tree.attached →
    (∃ name conditional, tree.kind ref = .member operand name conditional) ∨
      (∃ arguments, tree.kind ref = .invoke operand arguments) ∨
      (∃ arguments, tree.kind ref = .index operand arguments) ∨
      (∃ op, tree.kind ref = .unary op operand ∧ op.isPostfix = true) →
    (tree.kind operand).isLeading = false ∧ (tree.kind operand).binaryOp? = none ∧
      (tree.kind operand).isAssign = false ∧ (tree.kind operand).isLambda = false
  /-- What is assigned to is no assignment or lambda. -/
  target : ∀ {ref target value : Ref} {op : AssignOp}, ref ∈ tree.attached →
    tree.kind ref = .assign op target value →
    (tree.kind target).isAssign = false ∧ (tree.kind target).isLambda = false

section

variable {tree : Tree} {term : Outline}

/-- The level of a node that is shown is that of the term. -/
theorem Shows.level_eq (shows : tree.Shows term) :
    (tree.kind term.ref).level = Shape.level term.shape := by
  rw [Shape.level_eq, Kind.level_eq_of_skeleton shows.depicts.skeleton]
  rcases term with ⟨place, form⟩
  cases form <;> rfl

/-- A node of a certain level above the lowest is no assignment or lambda, and a binary operation
only of an operator that binds as tightly. -/
theorem binds_of_le_level {least : Nat} (high : least ≤ kind.level) (positive : 0 < least) :
    kind.isAssign = false ∧ kind.isLambda = false ∧
      ∀ op, kind.binaryOp? = some op → least ≤ op.precedence := by
  have notZero : kind.level ≠ 0 := by omega
  refine ⟨?_, ?_, fun op isBinary => Kind.level_of_binaryOp? isBinary ▸ high⟩
  · exact Bool.eq_false_iff.2 fun assign => notZero (Kind.level_eq_zero (.inl assign))
  · exact Bool.eq_false_iff.2 fun lambda => notZero (Kind.level_eq_zero (.inr lambda))

/-- A node above all precedences is no binary operation. -/
theorem binaryOp?_eq_none_of_le_level (high : Shape.prefixLevel ≤ kind.level) :
    kind.binaryOp? = none := by
  rw [Option.eq_none_iff_forall_not_mem]
  intro op isBinary
  have below := op.precedence_bounds.2
  rw [Kind.level_of_binaryOp? isBinary] at high
  omega

/-- A node of the tightest level has no operator in front. -/
theorem isLeading_eq_false_of_le_level (high : Shape.postfixLevel ≤ kind.level) :
    kind.isLeading = false := by
  rw [Bool.eq_false_iff]
  intro leading
  rw [Kind.level_of_isLeading leading] at high
  exact absurd high (by decide)

/-- The node of an operand has the level that the operand needs. -/
theorem le_level_of_isOperand {operand : Option Outline} {least : Nat}
    (shown : ∀ child ∈ operand, tree.Shows child)
    (isOperand : (operand.map Term.shape).any (Shape.isOperand least) = true) :
    least ≤ (tree.kind (refOf operand)).level := by
  obtain ⟨shape, isShape, high⟩ := (Option.any_eq_true _ _).1 isOperand
  obtain ⟨child, rfl, rfl⟩ := Option.map_eq_some_iff.1 isShape
  rw [refOf_some, (shown child rfl).level_eq]
  exact Shape.le_level high

/-- The node of a lambda is one. -/
theorem Shows.isLambda (shows : tree.Shows term) (isLambda : Shape.isLambda term.shape = true) :
    (tree.kind term.ref).isLambda = true := by
  have depicts := shows.depicts
  rcases term with ⟨place, form⟩
  cases form with
  | lambda params body parenthesized =>
    obtain ⟨range, isKind, -⟩ := depicts.of_lambda
    rw [isKind]
    rfl
  | _ => cases isLambda

/-- The first child of a formed node is an operand of the level that the node demands. -/
theorem isOperand_of_isFormed {spelling : Spelling} {place : Place} {form : Form Place}
    {first : Option Outline} {others : List (Slot (Option Outline) (List Outline))}
    (slots : form.slots = .one first :: others) (positive : 0 < form.demand)
    (formed : Shape.IsFormed spelling (Term.shape (.node place form))) :
    (first.map Term.shape).any (Shape.isOperand form.demand) = true := by
  simp only [shape_node] at formed
  cases form <;>
    simp only [Kind.slots, List.cons.injEq, Slot.one.injEq, reduceCtorEq, false_and] at slots
  case member receiver name conditional =>
    rw [mapForm, mapSome_unit, Shape.IsFormed] at formed
    exact slots.1 ▸ formed.1
  case invoke callee arguments =>
    rw [mapForm, mapSome_unit, Shape.IsFormed] at formed
    exact slots.1 ▸ formed.1
  case index receiver arguments =>
    rw [mapForm, mapSome_unit, Shape.IsFormed] at formed
    exact slots.1 ▸ formed.1
  case unary op operand =>
    rw [mapForm, mapSome_unit, Shape.IsFormed] at formed
    exact slots.1 ▸ formed
  case binary op left right =>
    rw [mapForm, mapSome_unit, mapSome_unit, Shape.IsFormed] at formed
    rw [Kind.demand, ← slots.1]
    split <;> rename_i sort
    · rw [if_pos sort] at formed
      exact formed.1
    · rw [if_neg sort] at formed
      exact formed.1
  case assign op target value =>
    rw [mapForm, mapSome_unit, mapSome_unit, Shape.IsFormed] at formed
    obtain ⟨shape, isShape, sort⟩ := (Option.any_eq_true _ _).1 formed.1
    rw [← slots.1]
    exact (Option.any_eq_true _ _).2 ⟨shape, isShape, (Bool.and_eq_true_iff.1 sort).1⟩
  all_goals exact absurd positive (by simp [Kind.demand])

/-- A node where the tree shows a form as the grammar wants it. -/
def FormedAt (tree : Tree) (ref : Ref) : Prop :=
  ∃ place form, tree.Depicts (tree.kind ref) form ∧
    Shape.IsFormed .any (Term.shape (.node place form)) ∧
    ∀ child ∈ parts form, tree.Shows child

variable {ref operand : Ref}

/-- The first child of a formed node holds together as tightly as the node demands. -/
theorem FormedAt.first {others : List NodeSlot} (formed : tree.FormedAt ref)
    (slots : (tree.kind ref).slots = .one operand :: others)
    (positive : 0 < (tree.kind ref).demand) :
    (tree.kind ref).demand ≤ (tree.kind operand).level := by
  obtain ⟨place, form, depicts, isFormed, shown⟩ := formed
  have held := depicts.slots
  rw [slots, forall₂_holds_one] at held
  obtain ⟨first, others, contents, rfl, -, -⟩ := held
  rw [Kind.demand_eq_of_skeleton depicts.skeleton] at positive ⊢
  refine le_level_of_isOperand (fun child member => ?_)
    (isOperand_of_isFormed contents positive isFormed)
  have inside : .one first ∈ form.slots := contents ▸ List.mem_cons_self
  exact shown child (mem_parts.2 ⟨.one first, inside, Option.mem_toList.2 member⟩)

/-- The right operand of a formed binary operation holds together as tightly as the operator wants,
unless the operator is the coalescing one and the operand a lambda. -/
theorem FormedAt.right {op : BinaryOp} {left right : Ref} (formed : tree.FormedAt ref)
    (isKind : tree.kind ref = .binary op left right) :
    if op = .coalesce then op.precedence ≤ (tree.kind right).level ∨ (tree.kind right).isLambda
    else op.precedence < (tree.kind right).level := by
  obtain ⟨place, form, depicts, isFormed, shown⟩ := formed
  rw [isKind] at depicts
  obtain ⟨leftTerm, rightTerm, rfl, rfl, rfl⟩ := depicts.binary
  have shownRight : ∀ child ∈ rightTerm, tree.Shows child := fun child member =>
    shown child (by simp [Option.mem_def.1 member])
  rw [shape_node, mapForm, mapSome_unit, mapSome_unit, Shape.IsFormed] at isFormed
  split <;> rename_i sort
  · rw [if_pos sort] at isFormed
    obtain ⟨shape, isShape, sorts⟩ := (Option.any_eq_true _ _).1 isFormed.2
    rcases Bool.or_eq_true_iff.1 sorts with tight | isLambda
    · exact .inl
        (le_level_of_isOperand shownRight ((Option.any_eq_true _ _).2 ⟨shape, isShape, tight⟩))
    · obtain ⟨child, rfl, rfl⟩ := Option.map_eq_some_iff.1 isShape
      exact .inr ((shownRight child rfl).isLambda isLambda)
  · rw [if_neg sort] at isFormed
    exact le_level_of_isOperand shownRight isFormed.2

end

/-- Every node of the tree of a source text is formed as the grammar wants it. -/
theorem formedAt_of_parse {clock : Nat} {source : String} {tree : Tree}
    (parsed : Tree.parse clock source = .ok tree) {ref : Ref} (member : ref ∈ tree.attached) :
    tree.FormedAt ref := by
  obtain ⟨term, outline, read, program, records⟩ := exists_isProgram_of_parse parsed
  have shape : outline.shape = term.shape := by
    rw [← records, shape_map]
  have formed : outline.shape.All (Shape.IsFormed .any) := by
    rw [shape]
    exact Parser.formed_of_sound (SourceTerm.readable_of_parse read).sound
  rw [Term.shape, all_map_iff] at formed
  rw [program.attached] at member
  obtain ⟨⟨place, form⟩, within, rfl⟩ := mem_refs.1 member
  refine ⟨place, form, (program.stands.shows within).depicts,
    all_iff_subterms.1 formed _ within, ?_⟩
  exact fun child isChild => program.stands.shows (subterms_child within isChild)

/-- In the tree of a source text every operand binds as the precedence of its operator says. -/
theorem bindsByPrecedence_of_parse {clock : Nat} {source : String} {tree : Tree}
    (parsed : Tree.parse clock source = .ok tree) : tree.BindsByPrecedence := by
  have first {ref operand : Ref} {others : List NodeSlot} (member : ref ∈ tree.attached)
      (slots : (tree.kind ref).slots = .one operand :: others)
      (positive : 0 < (tree.kind ref).demand) :
      (tree.kind ref).demand ≤ (tree.kind operand).level :=
    (formedAt_of_parse parsed member).first slots positive
  have left {ref left right : Ref} {op : BinaryOp} (member : ref ∈ tree.attached)
      (isKind : tree.kind ref = .binary op left right) :
      (if op = .coalesce then op.precedence + 1 else op.precedence) ≤ (tree.kind left).level := by
    have high := @first ref left [.one right] member (isKind ▸ rfl)
    rw [isKind, Kind.demand] at high
    refine high ?_
    have binds := op.precedence_bounds.1
    split <;> omega
  have right {ref left right : Ref} {op : BinaryOp} (member : ref ∈ tree.attached)
      (isKind : tree.kind ref = .binary op left right) :=
    (formedAt_of_parse parsed member).right isKind
  have unary {ref operand : Ref} {op : UnaryOp} (member : ref ∈ tree.attached)
      (isKind : tree.kind ref = .unary op operand) :
      (if op.isPostfix then Shape.postfixLevel else Shape.prefixLevel)
        ≤ (tree.kind operand).level := by
    have high := @first ref operand [] member (isKind ▸ rfl)
    rw [isKind, Kind.demand] at high
    exact high (by split <;> decide)
  constructor
  case left =>
    intro ref leftRef rightRef op inner member isKind other isBinary
    have high := left member isKind
    rwa [if_neg other, Kind.level_of_binaryOp? isBinary] at high
  case right =>
    intro ref leftRef rightRef op inner member isKind other isBinary
    have high := right member isKind
    rwa [if_neg other, Kind.level_of_binaryOp? isBinary] at high
  case coalesceLeft =>
    intro ref leftRef rightRef inner member isKind isBinary
    have high := left member isKind
    rwa [if_pos rfl, Kind.level_of_binaryOp? isBinary] at high
  case coalesceRight =>
    intro ref leftRef rightRef inner member isKind isBinary
    have high := right member isKind
    rw [if_pos rfl, Kind.level_of_binaryOp? isBinary] at high
    refine high.resolve_right fun lambda => ?_
    have low := Kind.level_eq_zero (.inr lambda)
    rw [Kind.level_of_binaryOp? isBinary] at low
    exact absurd low (Nat.ne_of_gt inner.precedence_bounds.1)
  case noAssign =>
    intro ref leftRef rightRef op member isKind
    have binds := op.precedence_bounds.1
    have high := left member isKind
    have highRight := right member isKind
    refine ⟨(binds_of_le_level high (by split <;> omega)).1, ?_⟩
    split at highRight
    · rcases highRight with highRight | lambda
      · exact (binds_of_le_level highRight binds).1
      · exact Kind.isAssign_eq_false_of_isLambda lambda
    · exact (binds_of_le_level highRight (Nat.succ_pos _)).1
  case noLambda =>
    intro ref leftRef rightRef op member isKind
    have binds := op.precedence_bounds.1
    have high := left member isKind
    have highRight := right member isKind
    refine ⟨(binds_of_le_level high (by split <;> omega)).2.1, fun other => ?_⟩
    rw [if_neg other] at highRight
    exact (binds_of_le_level highRight (Nat.succ_pos _)).2.1
  case leading =>
    intro ref operand op member isKind isPrefix
    have high := unary member isKind
    rw [isPrefix, if_neg Bool.false_ne_true] at high
    obtain ⟨noAssign, noLambda, -⟩ := binds_of_le_level high (by decide)
    exact ⟨binaryOp?_eq_none_of_le_level high, noAssign, noLambda⟩
  case tight =>
    intro ref operand member sort
    have positive : 0 < Shape.postfixLevel := by decide
    have high : Shape.postfixLevel ≤ (tree.kind operand).level := by
      rcases sort with ⟨name, conditional, isKind⟩ | ⟨arguments, isKind⟩ | ⟨arguments,
        isKind⟩ | ⟨op, isKind, isPostfix⟩
      · have high := @first ref operand [] member (isKind ▸ rfl)
        rw [isKind] at high
        exact high positive
      · have high := @first ref operand [.many arguments] member (isKind ▸ rfl)
        rw [isKind] at high
        exact high positive
      · have high := @first ref operand [.many arguments] member (isKind ▸ rfl)
        rw [isKind] at high
        exact high positive
      · have high := unary member isKind
        rwa [if_pos isPostfix] at high
    obtain ⟨noAssign, noLambda, -⟩ := binds_of_le_level high (by decide)
    have above : Shape.prefixLevel ≤ (tree.kind operand).level := Nat.le_trans (by decide) high
    exact ⟨isLeading_eq_false_of_le_level high, binaryOp?_eq_none_of_le_level above, noAssign,
      noLambda⟩
  case target =>
    intro ref target value op member isKind
    have high := @first ref target [.one value] member (isKind ▸ rfl)
    rw [isKind, Kind.demand] at high
    obtain ⟨noAssign, noLambda, -⟩ := binds_of_le_level (high (by decide)) (by decide)
    exact ⟨noAssign, noLambda⟩

/-- To the right of a sum there is no sum, only a product. -/
theorem bindsByPrecedence_sum : ∃ tree, Tree.parse 0 "a + b * c + d;" = .ok tree ∧
    tree.kind (some 6) = .binary .add (some 4) (some 5) ∧ tree.BindsByPrecedence := by
  have computed : (Tree.parse 0 "a + b * c + d;").toOption.any (fun tree =>
      tree.kind (some 6) == .binary .add (some 4) (some 5)) = true := by
    decide +kernel
  obtain ⟨tree, parsed, isKind⟩ := exists_of_any computed
  exact ⟨tree, parsed, beq_iff_eq.1 isKind, bindsByPrecedence_of_parse parsed⟩

end Tree

end Refactory
