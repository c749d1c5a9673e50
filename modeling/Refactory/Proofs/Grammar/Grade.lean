import Refactory.Proofs.Term.Sorts

/-!
# Grades

What is asked of the nodes of a program comes in two grades. At least, children are of the right
sorts (`Grade.sorted`); at most, they are formed as the grammar says, and no two signs stand in a
row (`Grade.formed`). In either grade a node stays as it is asked to be when children come in the
places of others that serve for them (`Shape.meets_mapChildren`), and then it serves for the node
that it was (`Shape.serves_mapChildren`).

Most of what is exchanged in a program holds together as tightly as a name or a call does, or is the
negation of something. Such an expression serves for every other one (`Shape.IsCompact.serves`).
-/
namespace Refactory

variable {asked : Shape → Prop}

/-- How much is asked of the nodes of a program. -/
inductive Grade where
  /-- Children are of the right sorts. -/
  | sorted
  /-- They are formed as the grammar says, and no two signs stand in a row. -/
  | formed

namespace Shape

open Lexeme

variable {spelling : Spelling} {grade : Grade} {shape new old : Shape}

/-- A node whose children are of the right sorts, and a lambda with parameters without types and a
block or an expression for its body. -/
structure IsSeated (shape : Shape) : Prop where
  /-- The children are of the right sorts. -/
  inPlace : Term.InPlace shape
  /-- The parameters of a lambda have no types. -/
  params : ∀ params body parenthesized, shape.kind = .lambda params body parenthesized →
    ∀ param ∈ params, isBareParam param = true
  /-- The body of a lambda is a block or an expression. -/
  body : ∀ params body parenthesized, shape.kind = .lambda params (some body) parenthesized →
    isBlock body = true ∨ isExpression body = true

/-- A shape that may stand where another one does, as far as sorts go. -/
structure Suits (new old : Shape) : Prop where
  /-- It is of the same sort. -/
  sort : new.kind.sort = old.kind.sort
  /-- It is a parameter without a type if the other is. -/
  isBareParam : isBareParam old = true → isBareParam new = true
  /-- It is a block if the other is. -/
  isBlock : isBlock old = true → isBlock new = true

/-- A node is as a grade asks it to be. -/
def Meets : Grade → Shape → Prop
  | .sorted, shape => IsSeated shape
  | .formed, shape => IsFormed .scanned shape ∧ ¬IsDoubleNegation shape

/-- A shape may get the place of another one, as far as a grade is concerned with the nodes above,
but that a receiver may hold together too loosely. -/
def Serves : Grade → Shape → Shape → Prop
  | .sorted, new, old => Suits new old
  | .formed, new, old => Fits new old

/-- A shape and all below it is as a grade asks. -/
def Upholds (grade : Grade) (shape : Shape) : Prop := shape.All (Meets grade)

/-- A shape is its own shape. -/
theorem shape_eq_self (shape : Shape) : Term.shape shape = shape := by
  induction shape using Term.induction with
  | step note form same =>
    calc
      Term.shape (.node note form) = .node () (Term.mapChildren Term.shape form) :=
        (Term.shape_node note form).trans (congrArg (Term.node ()) (Term.mapForm_eq _ form))
      _ = .node note form := congrArg (Term.node ()) (Term.mapChildren_eq_self same)

/-- What is formed has its children in their places. -/
theorem IsFormed.isSeated (formed : IsFormed spelling shape) : IsSeated shape := by
  refine ⟨Term.inPlace_of_isFormed ((shape_eq_self shape).symm ▸ formed),
    fun params body parenthesized isLambda => ?_, fun params body parenthesized isLambda => ?_⟩
  · rcases shape with ⟨note, form⟩
    obtain rfl : form = .lambda params body parenthesized := isLambda
    exact List.all_eq_true.1 formed.1
  · rcases shape with ⟨note, form⟩
    obtain rfl : form = .lambda params (some body) parenthesized := isLambda
    exact Bool.or_eq_true_iff.1 formed.2.2

/-- In either grade the children are of the right sorts. -/
theorem Meets.isSeated (meets : Meets grade shape) : IsSeated shape := by
  cases grade with
  | sorted => exact meets
  | formed => exact IsFormed.isSeated meets.1

/-- The sort of a node is told by what the grammar asks of it. -/
theorem sort_eq (shape : Shape) : shape.kind.sort =
    if isExpression shape then .expression
    else if isStatement shape || shape.kind.isMethod then .statement
    else if isTypedParam shape || isBareParam shape then .param
    else if isType shape then .type
    else if isDeclarator shape then .declarator
    else if isArgument shape then .argument
    else .unit := by
  rcases shape with ⟨note, form⟩
  cases form
  case param type name => cases type <;> rfl
  all_goals rfl

/-- Nodes of which the grammar asks the same suit each other. -/
theorem Kin.suits (kin : Kin new old) : Suits new old where
  sort := by
    rw [sort_eq, sort_eq, kin.isExpression, kin.isStatement, kin.isMethod, kin.isTypedParam,
      kin.isBareParam, kin.isType, kin.isDeclarator, kin.isArgument]
  isBareParam := kin.isBareParam.trans
  isBlock := kin.isBlock.trans

namespace Serves

theorem refl (grade : Grade) (shape : Shape) : Serves grade shape shape := by
  cases grade with
  | sorted => exact (Kin.refl shape).suits
  | formed => exact Fits.refl shape

theorem trans {first second third : Shape} (left : Serves grade first second)
    (right : Serves grade second third) : Serves grade first third := by
  cases grade with
  | sorted =>
    exact ⟨left.sort.trans right.sort, left.isBareParam ∘ right.isBareParam,
      left.isBlock ∘ right.isBlock⟩
  | formed => exact Fits.trans left right

/-- In either grade, what serves suits. -/
theorem suits (serves : Serves grade new old) : Suits new old := by
  cases grade with
  | sorted => exact serves
  | formed => exact serves.toKin.suits

end Serves

theorem isBareParam_iff : isBareParam shape = true ↔ ∃ name, shape.kind = .param none name := by
  rcases shape with ⟨note, form⟩
  cases form with
  | param type name => cases type <;> simp [isBareParam, Term.kind]
  | _ => simp [isBareParam, Term.kind]

/-- Expressions are told by their sort. -/
theorem isExpression_iff_sort : isExpression shape = true ↔ shape.kind.sort = .expression := by
  rcases shape with ⟨note, form⟩
  cases form <;> simp [isExpression, Term.kind, Kind.isExpression, Kind.sort]

theorem sort_of_isStatement (statement : isStatement shape = true) :
    shape.kind.sort = .statement := by
  rcases shape with ⟨note, form⟩
  cases form <;> first | rfl | cases statement

theorem not_isStatement_of_sort {sort : NodeSort} (other : sort ≠ .statement)
    (isSort : shape.kind.sort = sort) :
    isStatement shape = false :=
  Bool.eq_false_iff.2 fun statement => other (isSort.symm.trans (sort_of_isStatement statement))

/-- A block is a statement that ends closed. -/
theorem closed_of_isBlock
    (block : isBlock shape = true) : isStatement shape = true ∧ endsOpenIf shape = false := by
  rcases shape with ⟨note, form⟩
  cases form <;> first | exact ⟨rfl, rfl⟩ | cases block

theorem isArgument_iff_sort : isArgument shape = true ↔ shape.kind.sort = .argument := by
  rcases shape with ⟨note, form⟩
  cases form <;> simp [isArgument, Term.kind, Kind.sort]

theorem isType_iff_sort : isType shape = true ↔ shape.kind.sort = .type := by
  rcases shape with ⟨note, form⟩
  cases form <;> simp [isType, Term.kind, Kind.sort]

theorem isDeclarator_iff_sort : isDeclarator shape = true ↔ shape.kind.sort = .declarator := by
  rcases shape with ⟨note, form⟩
  cases form <;> simp [isDeclarator, Term.kind, Kind.sort]

section

variable {α : Type} {old new : Term α → Shape} {note note' : Unit} {form : Term.Form α}

/-- A node stays seated when children that suit stand in the places of the others. -/
theorem isSeated_mapChildren (suits : ∀ child ∈ Term.parts form, Suits (new child) (old child))
    (seated : IsSeated (.node note (Term.mapChildren old form))) :
    IsSeated (.node note' (Term.mapChildren new form)) := by
  refine ⟨Term.inPlace_mapChildren seated.inPlace fun child held =>
    (suits child held).sort, fun params body parenthesized isLambda param among =>
    ?_, fun params body parenthesized isLambda => ?_⟩
  · cases form with
    | lambda inner child written =>
      obtain ⟨rfl, -, -⟩ := Kind.lambda.inj isLambda
      obtain ⟨param, member, rfl⟩ := List.mem_map.1 among
      exact (suits param (by simp [member])).isBareParam
        (seated.params _ _ _ rfl _ (List.mem_map_of_mem member))
    | _ => cases isLambda
  · cases form with
    | lambda inner child written =>
      obtain ⟨child, rfl, rfl⟩ := Option.map_eq_some_iff.1 (Kind.lambda.inj isLambda).2.1
      have suitsBody := suits child (by simp)
      refine (seated.body _ (old child) _ rfl).imp suitsBody.isBlock fun expression => ?_
      rw [isExpression_iff_sort] at expression ⊢
      exact suitsBody.sort.trans expression
    | _ => cases isLambda

/-- A node stays as it is asked to be when children that serve stand in the places of the others. -/
theorem meets_mapChildren (serves : ∀ child ∈ Term.parts form, Serves grade (new child) (old child))
    (meets : Meets grade (.node note (Term.mapChildren old form)))
    (tight : grade = .formed → ¬IsLoose (.node note' (Term.mapChildren new form))) :
    Meets grade (.node note' (Term.mapChildren new form)) := by
  cases grade with
  | sorted => exact isSeated_mapChildren serves meets
  | formed =>
    refine ⟨isFormed_mapChildren serves meets.1 (tight rfl), fun double => meets.2 ?_⟩
    cases form with
    | unary op operand =>
      cases op with
      | neg => exact any_map_of (fun term held => (serves term (by simp [held])).isSigned) double
      | _ => cases double
    | _ => cases double

/-- A node that stands in the place of one with other children serves for it, if its children
serve. -/
theorem serves_mapChildren
    (serves : ∀ child ∈ Term.parts form, Serves grade (new child) (old child)) :
    Serves grade (.node note' (Term.mapChildren new form))
    (.node note (Term.mapChildren old form)) := by
  cases grade with
  | sorted => exact (Kin.mapChildren old new form).suits
  | formed => exact fits_mapChildren serves

end

/-- An expression that holds together as tightly as a receiver must. -/
def IsTight (shape : Shape) : Prop := isOperand postfixLevel shape = true

namespace IsTight

theorem isExpression (tight : IsTight shape) : isExpression shape = true :=
    isExpression_of_isOperand tight

/-- Nothing holds together more tightly. -/
theorem level (tight : IsTight shape) : level shape = postfixLevel := by
  refine Nat.le_antisymm ?_ (le_level tight)
  rcases shape with ⟨note, form⟩
  cases form with
  | binary op left right => cases op <;> exact Nat.le_of_ble_eq_true rfl
  | unary op operand => cases op <;> exact Nat.le_of_ble_eq_true rfl
  | _ => exact Nat.le_of_ble_eq_true rfl

end IsTight

/-- An expression that may be an operand of an operator in front, starts with no sign, and into
which nothing runs that comes after it. -/
structure IsCompact (shape : Shape) : Prop where
  isExpression : isExpression shape = true
  isLambda : isLambda shape = false
  level : prefixLevel ≤ level shape
  endsOpen : endsOpen shape = false
  swallows : swallows shape = true
  endsOpenIf : endsOpenIf shape = false
  isSigned : isSigned shape = false

/-- Tight expressions are compact. -/
theorem IsTight.isCompact (tight : IsTight shape) : IsCompact shape := by
  have level : prefixLevel ≤ Shape.level shape := tight.level.symm ▸ by decide
  rcases shape with ⟨note, form⟩
  cases form with
  | lambda params body parenthesized => cases tight
  | assign op target value => cases tight
  | binary op left right => cases op <;> cases tight
  | unary op operand =>
    cases op <;> first | exact ⟨rfl, rfl, level, rfl, rfl, rfl, rfl⟩ | cases tight
  | _ => first | exact ⟨rfl, rfl, level, rfl, rfl, rfl, rfl⟩ | cases tight

namespace IsCompact

/-- So are negations. -/
theorem not (note : Unit) (operand : Option Shape) : IsCompact (.node note (.unary .not operand)) :=
  ⟨rfl, rfl, Nat.le_refl _, rfl, rfl, rfl, rfl⟩

/-- An expression is none of the other things that the grammar asks for. -/
theorem kin (compact : IsCompact new) (compactOld : IsCompact old) : Kin new old := by
  have other (shape : Shape)
      (expression : Shape.isExpression shape = true) : isStatement shape = false ∧
      isBlock shape = false ∧ isDeclaration shape = false ∧ shape.kind.isMethod = false ∧
        isType shape = false ∧
      isTypedParam shape = false ∧ isBareParam shape = false ∧ isDeclarator shape = false ∧
        isArgument shape = false := by
    rcases shape with ⟨note, form⟩
    cases form <;> first | exact ⟨rfl, rfl, rfl, rfl, rfl, rfl, rfl, rfl, rfl⟩ | cases expression
  have := compact.isLambda
  have := compactOld.isLambda
  have := other new compact.isExpression
  have := other old compactOld.isExpression
  constructor <;> simp_all [compact.isExpression, compactOld.isExpression]

/-- Compact expressions fit in the places of each other. -/
theorem fits (compact : IsCompact new) (compactOld : IsCompact old) : Fits new old where
  toKin := compact.kin compactOld
  level := Nat.le_trans (Nat.min_le_right _ _) compact.level
  endsOpen := by simp [compact.endsOpen]
  swallows := fun _ => compactOld.swallows
  endsOpenIf := by simp [compact.endsOpenIf]
  isSigned := by simp [compact.isSigned]

/-- So they serve for each other in either grade. -/
theorem serves (grade : Grade) (compact : IsCompact new)
    (compactOld : IsCompact old) : Serves grade new old := by
  cases grade with
  | sorted => exact (compact.kin compactOld).suits
  | formed => exact compact.fits compactOld

end IsCompact

/-- An expression that holds together at least so tightly, as far as a grade asks for it. -/
def Binds (grade : Grade) (least : Nat) (shape : Shape) : Prop :=
  isExpression shape = true ∧ (grade = .formed → least ≤ level shape)

theorem Binds.of_isTight {least : Nat} (tight : IsTight shape) (enough : least ≤ postfixLevel) :
    Binds grade least shape :=
  ⟨tight.isExpression, fun _ => Nat.le_trans enough (Nat.le_of_eq tight.level.symm)⟩

/-- Every expression holds together at all. -/
theorem Binds.of_isExpression (isExpression : Shape.isExpression shape = true) :
    Binds grade 0 shape :=
  ⟨isExpression, fun _ => Nat.zero_le _⟩

theorem Binds.mono {less least : Nat} (binds : Binds grade least shape)
    (le : less ≤ least) : Binds grade less shape :=
  ⟨binds.1, fun formed => Nat.le_trans le (binds.2 formed)⟩

/-- A statement, or a method where sorts are all that a grade asks for. -/
def IsStep (grade : Grade) (shape : Shape) : Prop :=
  shape.kind.sort = .statement ∧ (grade = .formed → isStatement shape = true)

theorem Serves.isStep (serves : Serves grade new old)
    (isStep : IsStep grade old) : IsStep grade new := by
  refine ⟨serves.suits.sort.trans isStep.1, fun formed => ?_⟩
  subst formed
  exact serves.isStatement.trans (isStep.2 rfl)

/-- A child of which something is asked, and which is there if a grade asks for it. -/
def Needs (grade : Grade) (asked : Shape → Prop) (child : Option Shape) : Prop :=
  (∀ shape ∈ child, asked shape) ∧ (grade = .formed → child.isSome = true)

/-- A name as the grammar has names, as far as a grade asks for it. -/
def Allows (grade : Grade) (name : String) : Prop := grade = .formed → isName name = true

section

variable {note : Unit} {child other : Option Shape} {name : String}

/-- Of a child that is there only the one thing is asked. -/
theorem needs_some (holds : asked shape) : Needs grade asked (some shape) :=
  ⟨fun _ held => Option.some.inj held ▸ holds, fun _ => rfl⟩

theorem Needs.mono {less : Shape → Prop} (needs : Needs grade asked child)
    (weaker : ∀ shape, asked shape → less shape) :
    Needs grade less child :=
  ⟨fun shape held => weaker shape (needs.1 shape held), needs.2⟩

/-- What is asked of the shape of a child is asked of the child. -/
theorem needs_map_iff {α : Type} {term : Option α} {f : α → Shape} :
    Needs grade asked (term.map f) ↔
    (∀ inner ∈ term, asked (f inner)) ∧ (grade = .formed → term.isSome = true) := by
  simp [Needs]

theorem needs_sorted_iff : Needs .sorted asked child ↔ ∀ shape ∈ child, asked shape :=
  and_iff_left nofun

theorem needs_formed_iff {sort : Shape → Bool} (same : ∀ shape, asked shape ↔ sort shape = true) :
    Needs .formed asked child ↔ child.any sort = true := by
  cases child <;> simp [Needs, same]

theorem binds_formed_iff
    {least : Nat} : Binds .formed least shape ↔ isOperand least shape = true := by
  simp [Binds, isOperand, isExpression]

theorem binds_formed_zero : Binds .formed 0 shape ↔ isExpression shape = true := by
  simp [Binds]

/-- What is asked of a node that is no lambda, as far as sorts go. -/
theorem meets_sorted_iff {form : Term.Form Unit} (noLambda : isLambda (.node note form) = false) :
    Meets .sorted (.node note form) ↔ List.Forall₂ Term.Fits form.slots form.childSorts := by
  refine ⟨fun meets => meets.inPlace.sorts, fun fits => ⟨⟨fits⟩, ?_, ?_⟩⟩
  all_goals
    rintro params body parenthesized same
    obtain rfl : form = _ := same
    cases noLambda

theorem meets_ident_iff : Meets grade (.node note (.ident name)) ↔ Allows grade name := by
  cases grade with
  | sorted => exact (meets_sorted_iff rfl).trans (by simp [Kind.childSorts, Allows])
  | formed => simp [Meets, IsFormed, IsDoubleNegation, Allows]

theorem meets_member_iff
    {conditional : Bool} : Meets grade (.node note (.member child name conditional)) ↔
    Needs grade (Binds grade postfixLevel) child ∧ Allows grade name := by
  cases grade with
  | sorted =>
    rw [meets_sorted_iff rfl, needs_sorted_iff]
    simp [Kind.childSorts, Term.fits_one, Allows, Binds, isExpression_iff_sort]
  | formed =>
    rw [needs_formed_iff fun _ => binds_formed_iff]
    simp [Meets, IsFormed, IsDoubleNegation, Allows]

theorem meets_invoke_iff
    {arguments : List Shape} : Meets grade (.node note (.invoke child arguments)) ↔
    Needs grade (Binds grade postfixLevel) child ∧
    ∀ argument ∈ arguments, argument.kind.sort = .argument := by
  cases grade with
  | sorted =>
    rw [meets_sorted_iff rfl, needs_sorted_iff]
    simp [Kind.childSorts, Term.fits_one, Term.fits_many, Binds, isExpression_iff_sort]
  | formed =>
    rw [needs_formed_iff fun _ => binds_formed_iff]
    simp [Meets, IsFormed, IsDoubleNegation, isArgument_iff_sort]

theorem meets_argument_iff
    {modifier : Modifier} : Meets grade (.node note (.argument modifier child)) ↔
    Needs grade (Binds grade 0) child := by
  cases grade with
  | sorted =>
    rw [meets_sorted_iff rfl, needs_sorted_iff]
    simp [Kind.childSorts, Term.fits_one, Binds, isExpression_iff_sort]
  | formed =>
    rw [needs_formed_iff fun _ => binds_formed_zero]
    simp [Meets, IsFormed, IsDoubleNegation]

theorem meets_paren_iff : Meets grade (.node note (.paren child)) ↔
    Needs grade (Binds grade 0) child := by
  cases grade with
  | sorted =>
    rw [meets_sorted_iff rfl, needs_sorted_iff]
    simp [Kind.childSorts, Term.fits_one, Binds, isExpression_iff_sort]
  | formed =>
    rw [needs_formed_iff fun _ => binds_formed_zero]
    simp [Meets, IsFormed, IsDoubleNegation]

theorem meets_index_iff {position : Shape} : Meets grade (.node note (.index child [position])) ↔
    Needs grade (Binds grade postfixLevel) child ∧ Binds grade 0 position := by
  cases grade with
  | sorted =>
    rw [meets_sorted_iff rfl, needs_sorted_iff]
    simp [Kind.childSorts, Term.fits_one, Term.fits_many, Binds, isExpression_iff_sort]
  | formed =>
    rw [needs_formed_iff fun _ => binds_formed_iff, binds_formed_zero]
    simp [Meets, IsFormed, IsDoubleNegation]

/-- A binary operation whose operator associates to the left. -/
theorem meets_binary_iff {op : BinaryOp}
    (isLeft : op ≠ .coalesce) : Meets grade (.node note (.binary op child other)) ↔
    Needs grade (Binds grade op.precedence) child ∧
    Needs grade (Binds grade (op.precedence + 1)) other := by
  cases grade with
  | sorted =>
    rw [meets_sorted_iff rfl, needs_sorted_iff, needs_sorted_iff]
    simp [Kind.childSorts, Term.fits_one, Binds, isExpression_iff_sort]
  | formed =>
    rw [needs_formed_iff fun _ => binds_formed_iff, needs_formed_iff fun _ => binds_formed_iff]
    simp [Meets, IsFormed, IsDoubleNegation, isLeft]

theorem meets_not_iff : Meets grade (.node note (.unary .not child)) ↔
    Needs grade (Binds grade prefixLevel) child := by
  cases grade with
  | sorted =>
    rw [meets_sorted_iff rfl, needs_sorted_iff]
    simp [Kind.childSorts, Term.fits_one, Binds, isExpression_iff_sort]
  | formed =>
    rw [needs_formed_iff fun _ => binds_formed_iff]
    simp [Meets, IsFormed, IsDoubleNegation, UnaryOp.isPostfix]

theorem meets_postInc_iff : Meets grade (.node note (.unary .postInc child)) ↔
    Needs grade (Binds grade postfixLevel) child := by
  cases grade with
  | sorted =>
    rw [meets_sorted_iff rfl, needs_sorted_iff]
    simp [Kind.childSorts, Term.fits_one, Binds, isExpression_iff_sort]
  | formed =>
    rw [needs_formed_iff fun _ => binds_formed_iff]
    simp [Meets, IsFormed, IsDoubleNegation, UnaryOp.isPostfix]

theorem meets_param_iff : Meets grade (.node note (.param none name)) ↔ Allows grade name := by
  cases grade with
  | sorted => exact (meets_sorted_iff rfl).trans (by simp [Kind.childSorts, Term.fits_one, Allows])
  | formed => simp [Meets, IsFormed, IsDoubleNegation, Allows]

/-- The parameters of a lambda have no types. -/
theorem Meets.isBareParam {params : List Shape} {parenthesized : Bool}
    (meets : Meets grade (.node note (.lambda params child parenthesized))) :
    ∀ param ∈ params, Shape.isBareParam param = true :=
  meets.isSeated.params _ _ _ rfl

/-- A lambda of one parameter. -/
theorem meets_lambda_iff {param : Shape} {parenthesized : Bool} (bare : isBareParam param = true) :
    Meets grade (.node note (.lambda [param] child parenthesized)) ↔
      Needs grade (fun body => isBlock body = true ∨ isExpression body = true) child := by
  cases grade with
  | sorted =>
    rw [needs_sorted_iff]
    obtain ⟨name, isParam⟩ := isBareParam_iff.1 bare
    refine ⟨fun meets body isBody => ?_, fun each => ⟨⟨?_⟩, ?_, ?_⟩⟩
    · obtain rfl := Option.mem_def.1 isBody
      exact meets.body [param] body parenthesized rfl
    · refine .cons (Term.fits_many.2 (List.forall_mem_singleton.2 ?_))
        (.cons (Term.fits_one.2 fun body isBody => ?_) .nil)
      · rw [isParam]
        exact .head _
      · rcases each body isBody with isBlock | isExpression
        · exact List.mem_pair.2 (.inr (sort_of_isStatement (closed_of_isBlock isBlock).1))
        · exact List.mem_pair.2 (.inl (isExpression_iff_sort.1 isExpression))
    · rintro params body parenthesized ⟨⟩
      exact List.forall_mem_singleton.2 bare
    · rintro params body parenthesized ⟨⟩
      exact each body rfl
  | formed =>
    rw [needs_formed_iff fun _ => (Bool.or_eq_true_iff (x := isBlock _) (y := isExpression _)).symm]
    simp [Meets, IsFormed, IsDoubleNegation, bare]

theorem meets_typeRef_iff : Meets grade (.node note (.typeRef name [] 0)) ↔ Allows grade name := by
  cases grade with
  | sorted => exact (meets_sorted_iff rfl).trans (by simp [Kind.childSorts, Term.fits_many, Allows])
  | formed => simp [Meets, IsFormed, IsDoubleNegation, Allows]

theorem meets_declarator_iff : Meets grade (.node note (.declarator name child)) ↔
    (∀ value ∈ child, isExpression value = true) ∧ Allows grade name := by
  cases grade with
  | sorted =>
    rw [meets_sorted_iff rfl]
    simp [Kind.childSorts, Term.fits_one, Allows, isExpression_iff_sort]
  | formed => cases child <;> simp [Meets, IsFormed, IsDoubleNegation, Allows, and_comm]

theorem meets_localDecl_iff
    {declarator : Shape} : Meets grade (.node note (.localDecl child [declarator])) ↔
    Needs grade (·.kind.sort = .type) child ∧ declarator.kind.sort = .declarator := by
  cases grade with
  | sorted =>
    rw [meets_sorted_iff rfl, needs_sorted_iff]
    simp [Kind.childSorts, Term.fits_one, Term.fits_many]
  | formed =>
    rw [needs_formed_iff fun _ => isType_iff_sort.symm]
    simp [Meets, IsFormed, IsDoubleNegation, isDeclarator_iff_sort]

/-- A unit holds statements and methods. -/
theorem meets_unit_iff {members : List Shape} :
    Meets grade (.node note (.unit members)) ↔
    ∀ member ∈ members, member.kind.sort = .statement := by
  cases grade with
  | sorted => exact (meets_sorted_iff rfl).trans (by simp [Kind.childSorts, Term.fits_many])
  | formed =>
    have same (shape : Shape) : isMember shape = true ↔ shape.kind.sort = .statement := by
      rcases shape with ⟨note, form⟩
      cases form <;> simp [isMember, Term.kind, Kind.isStatement, Kind.isMethod, Kind.sort]
    simp [Meets, IsFormed, IsDoubleNegation, same]

theorem meets_block_iff {statements : List Shape} :
    Meets grade (.node note (.block statements)) ↔
    ∀ statement ∈ statements, IsStep grade statement := by
  cases grade with
  | sorted => exact (meets_sorted_iff rfl).trans (by simp [Kind.childSorts, Term.fits_many, IsStep])
  | formed =>
    have same (shape : Shape) : isStatement shape = true ↔ IsStep .formed shape := ⟨fun statement =>
      ⟨sort_of_isStatement statement, fun _ => statement⟩, fun isStep => isStep.2 rfl⟩
    simp [Meets, IsFormed, IsDoubleNegation, same]

/-- A node is as a grade asks when it is by itself and its children are. -/
theorem upholds_iff {form : Term.Form Unit} :
    Upholds grade (.node () form) ↔
    Meets grade (.node () form) ∧ ∀ child ∈ Term.parts form, Upholds grade child :=
  Term.All.node_iff

/-- An expression in parentheses is as a grade asks if the expression is. -/
theorem upholds_paren (upholds : Upholds grade shape) (isExpression : isExpression shape = true) :
    Upholds grade (.node () (.paren (some shape))) :=
  upholds_iff.2 ⟨meets_paren_iff.2
    (needs_some (.of_isExpression isExpression)), by simpa [Term.parts] using upholds⟩

/-- So is an argument that passes it. -/
theorem upholds_argument (upholds : Upholds grade shape)
    (isExpression : isExpression shape = true) :
    Upholds grade (.node () (.argument .plain (some shape))) :=
  upholds_iff.2 ⟨meets_argument_iff.2
    (needs_some (.of_isExpression isExpression)), by simpa [Term.parts] using upholds⟩

/-- So is its negation if it holds together tightly enough for that. -/
theorem upholds_not (upholds : Upholds grade shape) (binds : Binds grade prefixLevel shape) :
    Upholds grade (.node () (.unary .not (some shape))) :=
  upholds_iff.2 ⟨meets_not_iff.2 (needs_some binds), by simpa [Term.parts] using upholds⟩

/-- So is the call of something tight that passes it. -/
theorem upholds_callOn {callee : Shape} (upholdsCallee : Upholds grade callee)
    (tight : IsTight callee)
    (upholds : Upholds grade shape) (isExpression : Shape.isExpression shape = true) :
    Upholds grade
    (.node () (.invoke (some callee) [.node () (.argument .plain (some shape))])) := by
  refine upholds_iff.2 ⟨meets_invoke_iff.2 ⟨needs_some (.of_isTight tight (Nat.le_refl _)),
    List.forall_mem_singleton.2 rfl⟩, ?_⟩
  simpa [Term.parts] using ⟨upholdsCallee, upholds_argument upholds isExpression⟩

/-- The receivers of what is formed hold together tightly. -/
theorem IsFormed.not_isLoose (formed : IsFormed spelling shape) : ¬IsLoose shape := by
  have tight {child : Option Shape} (asked : child.any (isOperand postfixLevel) = true) :
      ¬∃ inner ∈ child, level inner < postfixLevel := by
    rintro ⟨inner, held, below⟩
    obtain rfl := Option.mem_def.1 held
    exact Nat.not_lt.2 (le_level asked) below
  rcases shape with ⟨note, form⟩
  cases form with
  | member | invoke | index => exact tight formed.1
  | unary op operand =>
    rintro ⟨isPostfix, below⟩
    rw [IsFormed, if_pos isPostfix] at formed
    exact tight formed below
  | _ => exact id

end

end Shape

end Refactory
