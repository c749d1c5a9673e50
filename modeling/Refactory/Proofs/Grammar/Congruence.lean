import Refactory.Proofs.Grammar.Front
import Refactory.Proofs.Term.Rework

/-!
# Other children in the same places

A node stays formed when its children are changed for others that fit: those of the same sort that
hold together as tightly and end no more openly (`Shape.Fits`). An operand that becomes the operand
of an operator in front may lose the tightness that receivers need, so that this is asked for apart
(`Shape.IsLoose`).

What the lookahead sees of a node is what it sees of the lexemes of its children in a row
(`Shape.lexemes_congr`).
-/
namespace Refactory

variable {here there : Shape → Bool}

namespace Shape

open Lexeme

variable {spelling : Spelling}

/-- Two shapes of the same sort. -/
structure Kin (new old : Shape) : Prop where
  /-- Both are expressions or none is. -/
  isExpression : isExpression new = isExpression old
  /-- Both are lambdas or none is. -/
  isLambda : isLambda new = isLambda old
  /-- Both are statements or none is. -/
  isStatement : isStatement new = isStatement old
  /-- Both are blocks or none is. -/
  isBlock : isBlock new = isBlock old
  /-- Both are declarations or none is. -/
  isDeclaration : isDeclaration new = isDeclaration old
  /-- Both are methods or none is. -/
  isMethod : new.kind.isMethod = old.kind.isMethod
  /-- Both are types or none is. -/
  isType : isType new = isType old
  /-- Both are parameters of methods or none is. -/
  isTypedParam : isTypedParam new = isTypedParam old
  /-- Both are parameters of lambdas or none is. -/
  isBareParam : isBareParam new = isBareParam old
  /-- Both are declared variables or none is. -/
  isDeclarator : isDeclarator new = isDeclarator old
  /-- Both are arguments or none is. -/
  isArgument : isArgument new = isArgument old

/-- A shape that may stand where another one does, except that a receiver may hold together too
loosely. -/
structure Fits (new old : Shape) : Prop extends Kin new old where
  /-- It holds together as tightly, up to what an operator in front asks for. -/
  level : min (level old) prefixLevel ≤ level new
  /-- It ends open only if the other does. -/
  endsOpen : endsOpen new = true → endsOpen old = true
  /-- It swallows an assignment only if the other does. -/
  swallows : swallows new = true → swallows old = true
  /-- It ends with a conditional statement that goes on only if the other does. -/
  endsOpenIf : endsOpenIf new = true → endsOpenIf old = true
  /-- A sign in front runs into it only if it would run into the other. -/
  isSigned : isSigned new = true → isSigned old = true

namespace Kin

theorem refl (shape : Shape) : Kin shape shape := by
  constructor <;> rfl

theorem trans {first second third : Shape} (left : Kin first second) (right : Kin second third) :
    Kin first third := by
  obtain ⟨_, _, _, _, _, _, _, _, _, _, _⟩ := left
  obtain ⟨_, _, _, _, _, _, _, _, _, _, _⟩ := right
  constructor <;> simp_all only

/-- A node keeps its sort when its children change. -/
theorem mapChildren {α : Type} {note note' : Unit} (old new : Term α → Shape)
    (form : Term.Form α) :
    Kin (.node note' (Term.mapChildren new form)) (.node note (Term.mapChildren old form)) := by
  constructor <;> cases form <;> first | rfl | (rename_i type _; cases type <;> rfl)

/-- Shapes of the same sort end their line in the same way. -/
theorem closing {new old : Shape} (kin : Kin new old) : closing new = closing old := by
  have same (shape : Shape) :
      Shape.closing shape = if Shape.isDeclaration shape then [.mark .semi] else [] := by
    rcases shape with ⟨note, form⟩
    cases form <;> rfl
  rw [same, same, kin.isDeclaration]

end Kin

/-- A receiver, a callee or the operand of an operator after it that holds together too loosely. -/
def IsLoose : Shape → Prop
  | .node _ (.member receiver _ _) => ∃ shape ∈ receiver, level shape < postfixLevel
  | .node _ (.invoke callee _) => ∃ shape ∈ callee, level shape < postfixLevel
  | .node _ (.index receiver _) => ∃ shape ∈ receiver, level shape < postfixLevel
  | .node _ (.unary op operand) =>
    op.isPostfix = true ∧ ∃ shape ∈ operand, level shape < postfixLevel
  | _ => False

namespace Fits

variable {new old : Shape}

theorem refl (shape : Shape) : Fits shape shape where
  toKin := .refl shape
  level := Nat.min_le_left _ _
  endsOpen := id
  swallows := id
  endsOpenIf := id
  isSigned := id

theorem trans {first second third : Shape} (left : Fits first second) (right : Fits second third) :
    Fits first third where
  toKin := left.toKin.trans right.toKin
  level := Nat.le_trans (Nat.le_min.2 ⟨right.level, Nat.min_le_right _ _⟩) left.level
  endsOpen := right.endsOpen ∘ left.endsOpen
  swallows := right.swallows ∘ left.swallows
  endsOpenIf := right.endsOpenIf ∘ left.endsOpenIf
  isSigned := right.isSigned ∘ left.isSigned

theorem isOperand (fits : Fits new old) {least : Nat} (low : least ≤ prefixLevel)
    (operand : isOperand least old = true) : Shape.isOperand least new = true := by
  have tight := le_level operand
  refine Bool.and_eq_true_iff.2 ⟨?_, decide_eq_true ?_⟩
  · exact fits.isExpression.trans (isExpression_of_isOperand operand)
  · exact Nat.le_trans (Nat.le_min.2 ⟨tight, low⟩) fits.level

theorem isOperand_postfixLevel (fits : Fits new old) (tight : ¬Shape.level new < postfixLevel)
    (operand : Shape.isOperand postfixLevel old = true) :
    Shape.isOperand postfixLevel new = true :=
  Bool.and_eq_true_iff.2 ⟨fits.isExpression.trans (isExpression_of_isOperand operand),
    decide_eq_true (Nat.not_lt.1 tight)⟩

end Fits

section

variable {α : Type} {old new : Term α → Shape} {child : Option (Term α)} {children : List (Term α)}

/-- What holds of a needed child holds of the one in its place. -/
theorem any_map_of
    (carry : ∀ term, child = some term → here (old term) = true → there (new term) = true)
    (known : (child.map old).any here = true) : (child.map new).any there = true := by
  cases child with
  | none => cases known
  | some term => exact carry term rfl known

/-- What holds of an optional child holds of the one in its place. -/
theorem all_map_of
    (carry : ∀ term, child = some term → here (old term) = true → there (new term) = true)
    (known : (child.map old).all here = true) : (child.map new).all there = true := by
  cases child with
  | none => rfl
  | some term => exact carry term rfl known

/-- What holds of all items holds of those in their places. -/
theorem listAll_map_of
    (carry : ∀ term ∈ children, here (old term) = true → there (new term) = true)
    (known : (children.map old).all here = true) : (children.map new).all there = true := by
  simp only [List.all_map, List.all_eq_true, Function.comp_apply] at known ⊢
  exact fun term member => carry term member (known term member)

end

section

variable {α : Type} {old new : Term α → Shape} {note note' : Unit} {form : Term.Form α}
  (fits : ∀ child ∈ Term.parts form, Fits (new child) (old child))

include fits

/-- A node stays formed when children that fit stand in the places of the others. -/
theorem isFormed_mapChildren (formed : IsFormed spelling (.node note (Term.mapChildren old form)))
    (tight : ¬IsLoose (.node note' (Term.mapChildren new form))) :
    IsFormed spelling (.node note' (Term.mapChildren new form)) := by
  -- A receiver is tight enough, since the node is not loose.
  have receiver {child : Option (Term α)}
      (tight : ¬∃ shape ∈ child.map new, level shape < postfixLevel)
      (operand : (child.map old).any (isOperand postfixLevel) = true)
      (inside : ∀ term ∈ child, term ∈ Term.parts form) :
      (child.map new).any (isOperand postfixLevel) = true := by
    refine any_map_of (fun term member known => ?_) operand
    refine (fits term (inside term member)).isOperand_postfixLevel (fun loose => tight ?_) known
    exact ⟨new term, by simp [Option.mem_def.1 member], loose⟩
  cases form with
  | unit members =>
    refine listAll_map_of (fun term member known => ?_) formed
    have kin := (fits term (by simp [member])).toKin
    rw [isMember, kin.isMethod]
    rwa [isMember, show (old term).kind.isStatement = (new term).kind.isStatement from
      kin.isStatement.symm] at known
  | method result name params body =>
    obtain ⟨isResult, isName, areParams, isBody⟩ := formed
    refine ⟨any_map_of ?_ isResult, isName, listAll_map_of ?_ areParams, any_map_of ?_ isBody⟩
    · exact fun term member => (fits term (by simp [member])).isType.trans
    · exact fun term member => (fits term (by simp [member])).isTypedParam.trans
    · exact fun term member => (fits term (by simp [member])).isBlock.trans
  | param type name =>
    exact ⟨all_map_of (fun term member => (fits term (by simp [member])).isType.trans) formed.1,
      formed.2⟩
  | typeRef name arguments rank =>
    exact ⟨formed.1, listAll_map_of (fun term member => (fits term (by simp [member])).isType.trans)
      formed.2.1, formed.2.2⟩
  | block statements =>
    exact listAll_map_of
      (fun term member => (fits term (by simp [member])).isStatement.trans) formed
  | localDecl type declarators =>
    obtain ⟨isType, nonempty, areDeclarators⟩ := formed
    refine ⟨any_map_of ?_ isType, by simpa using nonempty, listAll_map_of ?_ areDeclarators⟩
    · exact fun term member => (fits term (by simp [member])).isType.trans
    · exact fun term member => (fits term (by simp [member])).isDeclarator.trans
  | declarator name value =>
    exact ⟨formed.1, all_map_of
      (fun term member => (fits term (by simp [member])).isExpression.trans) formed.2⟩
  | exprStmt expression =>
    exact any_map_of (fun term member => (fits term (by simp [member])).isExpression.trans) formed
  | returnStmt value =>
    exact all_map_of (fun term member => (fits term (by simp [member])).isExpression.trans) formed
  | ifStmt condition thenBranch elseBranch =>
    obtain ⟨isCondition, isThen, isElse, closed⟩ := formed
    refine ⟨any_map_of ?_ isCondition, any_map_of ?_ isThen, all_map_of ?_ isElse, fun present =>
      all_map_of ?_ (closed (by simpa using present))⟩
    · exact fun term member => (fits term (by simp [member])).isExpression.trans
    · exact fun term member => (fits term (by simp [member])).isStatement.trans
    · exact fun term member => (fits term (by simp [member])).isStatement.trans
    · intro term member closed
      have carry := (fits term (by simp [member])).endsOpenIf
      grind
  | whileLoop condition body =>
    refine ⟨any_map_of ?_ formed.1, any_map_of ?_ formed.2⟩
    · exact fun term member => (fits term (by simp [member])).isExpression.trans
    · exact fun term member => (fits term (by simp [member])).isStatement.trans
  | forLoop declaration initializers condition incrementors body =>
    obtain ⟨declares, single, areInitializers, isCondition, areSteps, isBody⟩ := formed
    refine ⟨all_map_of ?_ declares, fun present => ?_, listAll_map_of ?_ areInitializers,
      all_map_of ?_ isCondition, listAll_map_of ?_ areSteps, any_map_of ?_ isBody⟩
    · exact fun term member => (fits term (by simp [member])).isDeclaration.trans
    · simpa using single (by simpa using present)
    · exact fun term member => (fits term (by simp [member])).isExpression.trans
    · exact fun term member => (fits term (by simp [member])).isExpression.trans
    · exact fun term member => (fits term (by simp [member])).isExpression.trans
    · exact fun term member => (fits term (by simp [member])).isStatement.trans
  | forEach type name collection body =>
    obtain ⟨isType, isName, isCollection, isBody⟩ := formed
    refine ⟨any_map_of ?_ isType, isName, any_map_of ?_ isCollection, any_map_of ?_ isBody⟩
    · exact fun term member => (fits term (by simp [member])).isType.trans
    · exact fun term member => (fits term (by simp [member])).isExpression.trans
    · exact fun term member => (fits term (by simp [member])).isStatement.trans
  | int value => exact formed
  | str contents => exact formed
  | bool value => exact formed
  | null => exact formed
  | ident name => exact formed
  | member object name conditional =>
    exact ⟨receiver tight formed.1 (by simp +contextual), formed.2⟩
  | invoke callee arguments =>
    refine ⟨receiver tight formed.1 (by simp +contextual), listAll_map_of ?_ formed.2⟩
    exact fun term member => (fits term (by simp [member])).isArgument.trans
  | argument modifier value =>
    exact any_map_of (fun term member => (fits term (by simp [member])).isExpression.trans) formed
  | index object arguments =>
    refine ⟨receiver tight formed.1 (by simp +contextual), by simpa using formed.2.1,
      listAll_map_of ?_ formed.2.2⟩
    exact fun term member => (fits term (by simp [member])).isExpression.trans
  | lambda params body parenthesized =>
    obtain ⟨bare, single, isBody⟩ := formed
    refine ⟨listAll_map_of ?_ bare, by simpa using single, any_map_of ?_ isBody⟩
    · exact fun term member => (fits term (by simp [member])).isBareParam.trans
    · intro term member known
      have kin := (fits term (by simp [member])).toKin
      rwa [kin.isBlock, kin.isExpression]
  | binary op left right =>
    have low : op.precedence + 1 ≤ prefixLevel := by cases op <;> decide
    by_cases coalesce : op = .coalesce
    · subst coalesce
      obtain ⟨isLeft, isRight⟩ := formed
      refine ⟨any_map_of ?_ isLeft, any_map_of ?_ isRight⟩
      · exact fun term member => (fits term (by simp [member])).isOperand low
      · intro term member known
        have fitsShape := fits term (by simp [member])
        rw [Bool.or_eq_true] at known ⊢
        exact known.imp (fitsShape.isOperand (Nat.le_of_succ_le low)) fitsShape.isLambda.trans
    · simp only [Term.mapChildren_binary, IsFormed, if_neg coalesce] at formed ⊢
      refine ⟨any_map_of ?_ formed.1, any_map_of ?_ formed.2⟩
      · exact fun term member => (fits term (by simp [member])).isOperand (Nat.le_of_succ_le low)
      · exact fun term member => (fits term (by simp [member])).isOperand low
  | unary op operand =>
    by_cases isPostfix : op.isPostfix = true
    · simp only [Term.mapChildren_unary, IsFormed, if_pos isPostfix] at formed ⊢
      exact receiver (fun loose => tight ⟨isPostfix, loose⟩) formed (by simp +contextual)
    · simp only [Term.mapChildren_unary, IsFormed, if_neg isPostfix] at formed ⊢
      exact any_map_of
        (fun term member => (fits term (by simp [member])).isOperand (Nat.le_refl _)) formed
  | assign op target value =>
    refine ⟨any_map_of ?_ formed.1, any_map_of ?_ formed.2⟩
    · intro term member known
      have fitsShape := fits term (by simp [member])
      rw [Bool.and_eq_true, Bool.not_eq_true'] at known ⊢
      refine ⟨fitsShape.isOperand (by decide) known.1, ?_⟩
      rw [← Bool.not_eq_true] at known ⊢
      exact fun openEnd => known.2 (fitsShape.endsOpen openEnd)
    · exact fun term member => (fits term (by simp [member])).isExpression.trans
  | paren inner =>
    exact any_map_of (fun term member => (fits term (by simp [member])).isExpression.trans) formed

/-- A node swallows an assignment only if it did so before its children changed. -/
theorem swallows_mapChildren
    (swallowed : swallows (.node note' (Term.mapChildren new form)) = true) :
    swallows (.node note (Term.mapChildren old form)) = true := by
  cases form with
  | lambda params body parenthesized =>
    cases body with
    | none => rfl
    | some body =>
      have fitsBody := fits body (by simp)
      have changed :
          swallows (.node note' (.lambda (params.map new) (some (new body)) parenthesized))
          = true := swallowed
      rw [swallows_lambda, Bool.and_eq_true, fitsBody.isBlock] at changed
      refine (swallows_lambda note (params.map old) (old body) parenthesized).trans ?_
      exact Bool.and_eq_true_iff.2 ⟨changed.1, fitsBody.swallows changed.2⟩
  | assign op target value =>
    cases value with
    | none => rfl
    | some value => exact (fits value (by simp)).swallows swallowed
  | _ => rfl

/-- A node that stands in the place of one with other children fits, if its children fit. -/
theorem fits_mapChildren : Fits (.node note' (Term.mapChildren new form))
    (.node note (Term.mapChildren old form)) where
  toKin := Kin.mapChildren old new form
  level := by
    refine Nat.le_trans (Nat.min_le_left _ _) (Nat.le_of_eq ?_)
    cases form <;> rfl
  swallows := swallows_mapChildren fits
  endsOpen := by
    intro openEnd
    cases form with
    | lambda params body parenthesized => exact swallows_mapChildren fits openEnd
    | binary op left right =>
      cases op with
      | coalesce =>
        cases right with
        | none => exact openEnd
        | some right => exact (fits right (by simp)).endsOpen openEnd
      | _ => exact openEnd
    | _ => exact openEnd
  endsOpenIf := by
    intro openEnd
    cases form with
    | ifStmt condition thenBranch elseBranch =>
      cases elseBranch with
      | none => rfl
      | some elseBranch => exact (fits elseBranch (by simp)).endsOpenIf openEnd
    | whileLoop condition body =>
      cases body with
      | none => exact openEnd
      | some body => exact (fits body (by simp)).endsOpenIf openEnd
    | forLoop declaration initializers condition incrementors body =>
      cases body with
      | none => exact openEnd
      | some body => exact (fits body (by simp)).endsOpenIf openEnd
    | forEach type name collection body =>
      cases body with
      | none => exact openEnd
      | some body => exact (fits body (by simp)).endsOpenIf openEnd
    | _ => exact openEnd
  isSigned := by
    intro signed
    cases form with
    | unary op operand => cases op <;> exact signed
    | _ => exact signed

omit fits in
/-- A node does not become loose where receivers hold together as tightly as before. -/
theorem not_isLoose_mapChildren
    (formed : IsFormed spelling (.node note (Term.mapChildren old form)))
    (tight : ∀ child ∈ Term.parts form, level (old child) ≤ level (new child)) :
    ¬IsLoose (.node note' (Term.mapChildren new form)) := by
  have receiver {child : Option (Term α)}
      (operand : (child.map old).any (isOperand postfixLevel) = true)
      (inside : ∀ term ∈ child, term ∈ Term.parts form) :
      ¬∃ shape ∈ child.map new, level shape < postfixLevel := by
    cases child with
    | none => cases operand
    | some term =>
      rintro ⟨_, ⟨rfl⟩, loose⟩
      exact absurd (Nat.le_trans (le_level operand) (tight term (inside term rfl)))
        (Nat.not_le.2 loose)
  cases form with
  | member object name conditional => exact receiver formed.1 (by simp +contextual)
  | invoke callee arguments => exact receiver formed.1 (by simp +contextual)
  | index object arguments => exact receiver formed.1 (by simp +contextual)
  | unary op operand =>
    rintro ⟨isPostfix, loose⟩
    simp only [Term.mapChildren_unary, IsFormed, if_pos isPostfix] at formed
    exact receiver formed (by simp +contextual) loose
  | _ => exact id

end

/-- A relation of texts that holds of two texts in a row when it holds of both parts. -/
structure Rowwise (related : List Lexeme → List Lexeme → Prop) : Prop where
  /-- It holds of every text and itself. -/
  refl : ∀ lexemes, related lexemes lexemes
  /-- It holds of two texts in a row. -/
  append : ∀ {left left' right right'}, related left left' → related right right' →
    related (left ++ right) (left' ++ right')

/-- What covers the parts covers the whole. -/
theorem rowwise_covers {follows : Lexeme → Bool} : Rowwise (Covers follows) where
  refl := Covers.refl
  append := Covers.append

section

variable {α : Type} {related : List Lexeme → List Lexeme → Prop} (rowwise : Rowwise related)
  {old new : Term α → Shape}

theorem Rowwise.cons {related : List Lexeme → List Lexeme → Prop} (rowwise : Rowwise related)
    (first : Lexeme) {rest rest' : List Lexeme} (more : related rest rest') :
    related (first :: rest) (first :: rest') := rowwise.append (rowwise.refl [first]) more

theorem opening_congr {child : Option (Term α)} {initializers initializers' : List Lexeme}
    (each : ∀ term ∈ child, related (lexemes (old term)) (lexemes (new term)))
    (kin : ∀ term ∈ child, Kin (new term) (old term))
    (others : related initializers initializers') :
    related (opening initializers (child.map old)) (opening initializers' (child.map new)) := by
  have same (initializers : List Lexeme) (shape : Shape) : opening initializers (some shape)
      = if isDeclaration shape then lexemes shape else initializers := by
    rcases shape with ⟨note, form⟩
    cases form <;> rfl
  cases child with
  | none => exact others
  | some term =>
    rw [Option.map_some, Option.map_some, same, same, (kin term rfl).isDeclaration]
    split
    · exact each term rfl
    · exact others

include rowwise

section

variable {child : Option (Term α)}
  (each : ∀ term ∈ child, related (lexemes (old term)) (lexemes (new term)))

include each

theorem one_congr :
    related (one (child.map old)) (one (child.map new)) := by
  cases child with
  | none => exact rowwise.refl _
  | some term => exact each term rfl

theorem optional_congr :
    related (optional (child.map old)) (optional (child.map new)) := by
  cases child with
  | none => exact rowwise.refl _
  | some term => exact each term rfl

theorem initial_congr :
    related (initial (child.map old)) (initial (child.map new)) := by
  cases child with
  | none => exact rowwise.refl _
  | some term => exact rowwise.cons _ (each term rfl)

theorem line_congr (kin : ∀ term ∈ child, Kin (new term) (old term)) :
    related (line (child.map old)) (line (child.map new)) := by
  cases child with
  | none => exact rowwise.refl _
  | some term =>
    rw [Option.map_some, Option.map_some, line, line, (kin term rfl).closing]
    exact rowwise.append (each term rfl) (rowwise.refl _)

theorem elseLine_congr (kin : ∀ term ∈ child, Kin (new term) (old term)) :
    related (elseLine (child.map old)) (elseLine (child.map new)) := by
  cases child with
  | none => exact rowwise.refl _
  | some term =>
    rw [Option.map_some, Option.map_some, elseLine, elseLine, (kin term rfl).closing]
    exact rowwise.append (rowwise.refl [_]) (rowwise.append (each term rfl) (rowwise.refl _))

end

theorem separated_congr {children : List (Term α)} (first : Bool)
    (each : ∀ term ∈ children, related (lexemes (old term)) (lexemes (new term))) :
    related (separated first (children.map old)) (separated first (children.map new)) := by
  induction children generalizing first with
  | nil => exact rowwise.refl _
  | cons term children ih =>
    have others := ih false fun other member => each other (.tail _ member)
    exact rowwise.append (rowwise.refl _) (rowwise.append (each term (.head _)) others)

theorem bracketed_congr {children : List (Term α)}
    (each : ∀ term ∈ children, related (lexemes (old term)) (lexemes (new term))) :
    related (bracketed (children.map old)) (bracketed (children.map new)) := by
  cases children with
  | nil => exact rowwise.refl _
  | cons term children =>
    have others := separated_congr rowwise false fun other member => each other (.tail _ member)
    exact rowwise.cons _ (rowwise.append (each term (.head _))
      (rowwise.append others (rowwise.refl _)))

theorem lines_congr {children : List (Term α)}
    (each : ∀ term ∈ children, related (lexemes (old term)) (lexemes (new term)))
    (kin : ∀ term ∈ children, Kin (new term) (old term)) :
    related (lines (children.map old)) (lines (children.map new)) := by
  induction children with
  | nil => exact rowwise.refl _
  | cons term children ih =>
    have others := ih (fun other member => each other (.tail _ member))
      fun other member => kin other (.tail _ member)
    rw [List.map_cons, List.map_cons, lines, lines, (kin term (.head _)).closing]
    exact rowwise.append (each term (.head _)) (rowwise.append (rowwise.refl _) others)

/-- What relates the lexemes of children, and lexemes in a row when it relates both parts, relates
the lexemes of nodes whose children are of the same sorts. -/
theorem lexemes_congr {note note' : Unit} {form : Term.Form α}
    (each : ∀ term ∈ Term.parts form, related (lexemes (old term)) (lexemes (new term)))
    (kin : ∀ term ∈ Term.parts form, Kin (new term) (old term)) :
    related (lexemes (.node note (Term.mapChildren old form)))
      (lexemes (.node note' (Term.mapChildren new form))) := by
  have refl := rowwise.refl
  have append {left left' right right' : List Lexeme} (first : related left left')
      (second : related right right') := rowwise.append first second
  have cons {first : Lexeme} {rest rest' : List Lexeme} (more : related rest rest') :=
    rowwise.cons first more
  have needed {child : Option (Term α)}
      (inside : ∀ term ∈ child, term ∈ Term.parts form) :=
    one_congr rowwise fun term member => each term (inside term member)
  have listed {children : List (Term α)}
      (inside : ∀ term ∈ children, term ∈ Term.parts form) :=
    separated_congr rowwise true fun term member => each term (inside term member)
  have lined {child : Option (Term α)}
      (inside : ∀ term ∈ child, term ∈ Term.parts form) :=
    line_congr rowwise (fun term member => each term (inside term member))
      fun term member => kin term (inside term member)
  have absent {child : Option (Term α)}
      (inside : ∀ term ∈ child, term ∈ Term.parts form) :=
    optional_congr rowwise fun term member => each term (inside term member)
  cases form with
  | unit members =>
    exact lines_congr rowwise (fun term member => each term (by simp [member]))
      fun term member => kin term (by simp [member])
  | method result name params body =>
    refine append (needed ?_) (cons (cons (append (listed ?_) (cons (needed ?_))))) <;>
      simp +contextual
  | param type name => exact append (absent (by simp +contextual)) (refl _)
  | typeRef name arguments rank =>
    exact cons (append (bracketed_congr rowwise fun term member => each term (by simp [member]))
      (refl _))
  | block statements =>
    exact cons (append (lines_congr rowwise (fun term member => each term (by simp [member]))
      fun term member => kin term (by simp [member])) (refl _))
  | localDecl type declarators =>
    refine append (needed ?_) (listed ?_) <;> simp +contextual
  | declarator name value =>
    exact cons
      (initial_congr rowwise fun term member => each term (by simp [Option.mem_def.1 member]))
  | exprStmt expression => exact append (needed (by simp +contextual)) (refl _)
  | returnStmt value => exact cons (append (absent (by simp +contextual)) (refl _))
  | ifStmt condition thenBranch elseBranch =>
    refine cons (cons (append (needed ?_) (cons (append (lined ?_)
      (elseLine_congr rowwise (fun term member => each term ?_) fun term member => kin term ?_)))))
    all_goals simp_all +contextual
  | whileLoop condition body =>
    refine cons (cons (append (needed ?_) (cons (lined ?_)))) <;> simp +contextual
  | forLoop declaration initializers condition incrementors body =>
    refine cons (cons (append (opening_congr ?_ ?_ (listed ?_))
      (cons (append (absent ?_) (cons (append (listed ?_) (cons (lined ?_))))))))
    · exact fun term member => each term (by simp [Option.mem_def.1 member])
    · exact fun term member => kin term (by simp [Option.mem_def.1 member])
    all_goals simp +contextual
  | forEach type name collection body =>
    refine cons (cons (append (needed ?_) (cons (cons (append (needed ?_) (cons (lined ?_))))))) <;>
      simp +contextual
  | int value => exact refl _
  | str contents => exact refl _
  | bool value => exact refl _
  | null => exact refl _
  | ident name => exact refl _
  | member object name conditional => exact append (needed (by simp +contextual)) (refl _)
  | invoke callee arguments =>
    refine append (needed ?_) (cons (append (listed ?_) (refl _))) <;> simp +contextual
  | argument modifier value => exact append (refl _) (needed (by simp +contextual))
  | index object arguments =>
    refine append (needed ?_) (cons (append (listed ?_) (refl _))) <;> simp +contextual
  | lambda params body parenthesized =>
    have header := @listed params (by simp +contextual)
    have tail := @cons (.mark .arrow) _ _ (@needed body (by simp +contextual))
    simp only [Term.mapChildren_lambda, lexemes, List.length_map]
    split
    · exact append (cons (append header (refl _))) tail
    · exact append header tail
  | binary op left right =>
    refine append (needed ?_) (cons (needed ?_)) <;> simp +contextual
  | unary op operand =>
    have inner := @needed operand (by simp +contextual)
    by_cases isPostfix : op.isPostfix = true
    · simp only [Term.mapChildren_unary, lexemes, if_pos isPostfix]
      exact append inner (refl _)
    · simp only [Term.mapChildren_unary, lexemes, if_neg isPostfix]
      exact cons inner
  | assign op target value =>
    refine append (needed ?_) (cons (needed ?_)) <;> simp +contextual
  | paren inner => exact cons (append (needed (by simp +contextual)) (refl _))

end

/-- A node is not taken for a declaration where the lookahead sees nothing new of its children. -/
theorem not_isFalseDeclaration_mapChildren {α : Type} {old new : Term α → Shape} {note note' : Unit}
    {form : Term.Form α}
    (covers : ∀ child ∈ Term.parts form,
      Covers followsDeclared (lexemes (old child)) (lexemes (new child)))
    (noDeclaration : ¬IsFalseDeclaration (.node note (Term.mapChildren old form))) :
    ¬IsFalseDeclaration (.node note' (Term.mapChildren new form)) := by
  cases form with
  | exprStmt expression =>
    intro ahead
    have inside := @one_congr _ _ rowwise_covers old new expression fun term member =>
      covers term (by simp [Option.mem_def.1 member])
    exact noDeclaration ((inside.append (.refl _)).ahead ahead)
  | forLoop declaration initializers condition incrementors body =>
    cases declaration with
    | none =>
      intro ahead
      have inside := @separated_congr _ _ rowwise_covers old new initializers true
        fun term member => covers term (by simp [member])
      exact noDeclaration ((inside.append (.refl _)).ahead ahead)
    | some declaration => exact id
  | _ => exact id

end Shape

end Refactory
