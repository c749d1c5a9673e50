import Refactory.Proofs.Grammar.Readable

/-!
# How expressions start

The lexemes of an expression start with those of its leftmost part, and what comes after a leftmost
part is a mark that goes on with it. `Shape.Front` follows an expression down its left side; by
induction on it, an expression starts with a lexeme that starts no declaration but a name, and only
a lambda passes the lookahead for lambdas.
-/
namespace Refactory

variable {shape : Shape} {least : Nat}

namespace Lexeme

/-- The lexemes that literals, names and expressions in parentheses start with. -/
def startsPrimary : Lexeme → Bool
  | .integer _ | .text _ | .keyword .true | .keyword .false | .keyword .null | .identifier _
  | .mark .lparen => true
  | _ => false

/-- The parameters of a lambda are in front, with the parenthesis and the arrow after them. -/
def closesParams : List Lexeme → Bool
  | .identifier _ :: .mark .comma :: rest => closesParams rest
  | .identifier _ :: .mark .rparen :: .mark .arrow :: _ => true
  | _ => false

/-- A lambda is in front. -/
def opensLambda : List Lexeme → Bool
  | .identifier _ :: .mark .arrow :: _ => true
  | .mark .lparen :: .mark .rparen :: .mark .arrow :: _ => true
  | .mark .lparen :: rest => closesParams rest
  | _ => false

/-- The marks that go on with an expression before them. -/
def joins : Mark → Bool
  | .rparen | .lbrace | .rbrace | .rbracket | .comma | .semi | .arrow | .bang => false
  | _ => true

end Lexeme

namespace Token

open Lexeme

/-- Only the lexemes of tokens count where the parameters of a lambda may end. -/
theorem closesLambdaParams_eq (tokens : List Token) :
    closesLambdaParams tokens = closesParams (lexemes tokens) := by
  fun_induction closesLambdaParams tokens with
  | case1 name span span' rest ih => simpa [closesParams] using ih
  | case2 => rfl
  | case3 tokens notComma notClosed =>
    unfold closesParams
    split
    · rename_i spelled
      obtain ⟨_, _, rfl, second⟩ := exists_of_lexemes_eq_cons spelled
      obtain ⟨_, _, rfl, -⟩ := exists_of_lexemes_eq_cons second
      exact (notComma _ _ _ _ rfl).elim
    · rename_i spelled
      obtain ⟨_, _, rfl, second⟩ := exists_of_lexemes_eq_cons spelled
      obtain ⟨_, _, rfl, third⟩ := exists_of_lexemes_eq_cons second
      obtain ⟨_, _, rfl, -⟩ := exists_of_lexemes_eq_cons third
      exact (notClosed _ _ _ _ _ rfl).elim
    · rfl

/-- Only the lexemes of tokens count where a lambda may start. -/
theorem atLambda_eq (tokens : List Token) : atLambda tokens = opensLambda (lexemes tokens) := by
  unfold atLambda
  split
  · rfl
  · rfl
  · rename_i rest notArrow
    rw [closesLambdaParams_eq, lexemes_cons]
    unfold opensLambda
    split
    · simp_all
    · rename_i same
      obtain ⟨-, spelled⟩ := List.cons.inj same
      obtain ⟨_, _, rfl, second⟩ := exists_of_lexemes_eq_cons spelled
      obtain ⟨_, _, rfl, -⟩ := exists_of_lexemes_eq_cons second
      exact (notArrow _ _ _ rfl).elim
    · simp_all
    · simp_all
  · rename_i notNamed notEmpty notListed
    unfold opensLambda
    split
    · rename_i spelled
      obtain ⟨_, _, rfl, second⟩ := exists_of_lexemes_eq_cons spelled
      obtain ⟨_, _, rfl, -⟩ := exists_of_lexemes_eq_cons second
      exact (notNamed _ _ _ _ rfl).elim
    · rename_i spelled
      obtain ⟨_, _, rfl, -⟩ := exists_of_lexemes_eq_cons spelled
      exact (notListed _ _ rfl).elim
    · rename_i spelled
      obtain ⟨_, _, rfl, -⟩ := exists_of_lexemes_eq_cons spelled
      exact (notListed _ _ rfl).elim
    · rfl

end Token

namespace Shape

open Lexeme

variable {spelling : Spelling}

/-- An expression, seen along its left side. -/
inductive Front : Shape → Prop
  /-- A literal or a name. -/
  | leaf {shape : Shape} {first : Lexeme} (spelled : lexemes shape = [first])
      (starts : first.startsPrimary = true) (closed : first ≠ .mark .lparen) : Front shape
  /-- An expression in parentheses. -/
  | paren {shape inner : Shape} (spelled : lexemes shape = .mark .lparen ::
      (lexemes inner ++ [Lexeme.mark .rparen])) (inside : Front inner) : Front shape
  /-- An operator with its operand after it. -/
  | leading {shape : Shape} (op : UnaryOp) (more : List Lexeme)
      (isPrefix : op.isPostfix = false) (loose : level shape = prefixLevel)
      (isOperation : ∃ note operand, shape = .node note (.unary op operand))
      (spelled : lexemes shape = .mark op.mark :: more) : Front shape
  /-- An expression with another one in front. -/
  | trailing {shape head : Shape} {mark : Mark} {more : List Lexeme} (front : Front head)
      (joined : joins mark = true) (plain : isLambda head = false)
      (tighter : level shape ≤ level head)
      (spelled : lexemes shape = lexemes head ++ .mark mark :: more) : Front shape
  /-- A lambda of one name. -/
  | named {shape : Shape} (name : String) (more : List Lexeme) (loose : isLambda shape = true)
      (spelled : lexemes shape = .identifier name :: .mark .arrow :: more) : Front shape
  /-- A lambda with its parameters in parentheses. -/
  | listed {shape : Shape} (more : List Lexeme) (loose : isLambda shape = true)
      (spelled : lexemes shape = .mark .lparen :: more) : Front shape

/-- Lambdas hold together least. -/
theorem isLambda_eq_false (positive : 0 < least)
    (operand : isOperand least shape = true) : isLambda shape = false := by
  rcases shape with ⟨note, form⟩
  cases form <;> first | rfl | simp_all [isOperand, level, Term.kind]

/-- Lambdas are expressions. -/
theorem isExpression_of_isLambda (lambda : isLambda shape = true) :
    isExpression shape = true := by
  rcases shape with ⟨note, form⟩
  cases form <;> first | rfl | cases lambda

/-- An operand is an expression. -/
theorem isExpression_of_isOperand
    (operand : isOperand least shape = true) : isExpression shape = true :=
  (Bool.and_eq_true_iff.1 operand).1

/-- An operand holds together at least as tightly as is wanted. -/
theorem le_level (operand : isOperand least shape = true) :
    least ≤ level shape := of_decide_eq_true (Bool.and_eq_true_iff.1 operand).2

/-- What holds together more tightly is an operand where less is wanted. -/
theorem isOperand_of_le {more : Nat} (le : least ≤ more)
    (operand : isOperand more shape = true) : isOperand least shape = true := by
  simp only [isOperand, Bool.and_eq_true, decide_eq_true_eq] at operand ⊢
  exact ⟨operand.1, Nat.le_trans le operand.2⟩

/-- A lambda ends open when it swallows an assignment operator. -/
theorem endsOpen_of_isLambda (lambda : isLambda shape = true) :
    endsOpen shape = swallows shape := by
  rcases shape with ⟨note, form⟩
  cases form <;> first | rfl | cases lambda

/-- Only lambdas and coalescing operations end open. -/
theorem endsOpen_eq_false
    (operand : isOperand (BinaryOp.coalesce.precedence + 1) shape = true) :
    endsOpen shape = false := by
  rcases shape with ⟨note, form⟩
  cases form with
  | binary op left right => cases op <;> first | rfl | cases operand
  | _ => first | rfl | cases operand

/-- The first item has nothing before it. -/
theorem separated_true (shape : Shape) (shapes : List Shape) :
    separated true (shape :: shapes) = lexemes shape ++ separated false shapes := by
  simp [separated]

/-- Items that are not the first have a comma before them. -/
theorem separated_false {shapes : List Shape} (nonempty : shapes ≠ []) :
    .mark .comma :: separated true shapes = separated false shapes := by
  cases shapes with
  | nil => exact absurd rfl nonempty
  | cons shape shapes => simp [separated]

theorem BinaryOp_joins (op : BinaryOp) : joins op.mark = true := by cases op <;> rfl

theorem AssignOp_joins (op : AssignOp) : joins op.mark = true := by cases op <;> rfl

/-- Every expression whose nodes are formed starts in one of these ways. -/
theorem front (formed : shape.All (IsFormed spelling)) (expression : isExpression shape = true) :
    Front shape := by
  induction shape using Term.induction with
  | step note form ih =>
    obtain ⟨here, below⟩ := Term.All.node_iff.1 formed
    -- The left part of an operation is its first child, which holds together tightly enough.
    have trailing {head : Shape} {least : Nat} {mark : Mark} {more : List Lexeme}
        (member : head ∈ Term.parts form) (operand : isOperand least head = true)
        (positive : 0 < least) (bound : level (.node note form) ≤ least)
        (joined : joins mark = true)
        (spelled : lexemes (.node note form) = lexemes head ++ .mark mark :: more) :
        Front (.node note form) :=
      .trailing (ih head member (below head member) (isExpression_of_isOperand operand)) joined
        (isLambda_eq_false positive operand) (Nat.le_trans bound (le_level operand)) spelled
    cases form with
    | int value => exact .leaf rfl rfl (by simp)
    | str contents => exact .leaf rfl rfl (by simp)
    | bool value => exact .leaf rfl (by cases value <;> rfl) (by simp)
    | null => exact .leaf rfl rfl (by simp)
    | ident name => exact .leaf rfl rfl (by simp)
    | member receiver name conditional =>
      obtain ⟨head, rfl, operand⟩ := (Option.any_eq_true _ _).1 here.1
      exact trailing (by simp) operand (by decide)
        (Nat.le_refl _) (by cases conditional <;> rfl) rfl
    | invoke callee arguments =>
      obtain ⟨head, rfl, operand⟩ := (Option.any_eq_true _ _).1 here.1
      exact trailing (by simp) operand (by decide)
        (Nat.le_refl _) rfl rfl
    | index receiver arguments =>
      obtain ⟨head, rfl, operand⟩ := (Option.any_eq_true _ _).1 here.1
      exact trailing (by simp) operand (by decide)
        (Nat.le_refl _) rfl rfl
    | lambda params body parenthesized =>
      obtain ⟨bare, single, -⟩ := here
      by_cases listed : (parenthesized || params.length != 1) = true
      · refine .listed (separated true params ++ .mark .rparen :: .mark .arrow :: one body) rfl ?_
        simp [lexemes, listed]
      · simp only [Bool.or_eq_true, bne_iff_ne, ne_eq, not_or, Decidable.not_not] at listed
        obtain ⟨⟨_, kind⟩, rfl⟩ := List.length_eq_one_iff.1 listed.2
        cases kind with
        | param type name =>
          cases type with
          | none =>
            exact .named name (one body) rfl (by simp [lexemes, separated, optional, listed.1])
          | some type => simp [isBareParam, Term.kind] at bare
        | _ => simp [isBareParam, Term.kind] at bare
    | binary op left right =>
      obtain ⟨head, rfl, operand⟩ : ∃ head, left = some head ∧
        isOperand op.precedence head = true := by
        simp only [IsFormed] at here
        split at here
        · obtain ⟨head, rfl, operand⟩ := (Option.any_eq_true _ _).1 here.1
          exact ⟨head, rfl, by simp_all [isOperand]; omega⟩
        · exact (Option.any_eq_true _ _).1 here.1
      exact trailing (by simp) operand (by cases op <;> decide) (Nat.le_refl _)
        (BinaryOp_joins op) rfl
    | unary op operand =>
      obtain ⟨head, rfl, operand⟩ := (Option.any_eq_true _ _).1 here
      by_cases isPostfix : op.isPostfix = true
      · rw [if_pos isPostfix] at operand
        have joined : joins op.mark = true := by cases op <;> first | rfl | cases isPostfix
        have spelled : lexemes (.node note (.unary op (some head)))
            = lexemes head ++ [Lexeme.mark op.mark] := by simp [lexemes, isPostfix, one]
        exact trailing (by simp) operand (by decide)
          (by simp [level, Term.kind, isPostfix, postfixLevel]) joined spelled
      · rw [Bool.not_eq_true] at isPostfix
        exact .leading op (lexemes head) isPostfix
          (by simp [level, Term.kind, isPostfix, prefixLevel])
          ⟨_, _, rfl⟩ (by simp [lexemes, isPostfix, one])
    | assign op target value =>
      obtain ⟨head, rfl, operand⟩ := (Option.any_eq_true _ _).1 here.1
      rw [Bool.and_eq_true] at operand
      exact trailing (by simp) operand.1 (by decide) (Nat.zero_le _) (AssignOp_joins op) rfl
    | paren inner =>
      obtain ⟨inside, rfl, isExpression⟩ := (Option.any_eq_true _ _).1 here
      have member : inside ∈ Term.parts (.paren (some inside)) := by simp
      exact .paren rfl (ih inside member (below inside member) isExpression)
    | _ => cases expression

/-- The lexemes of an expression start with an operator or with what a primary starts with. -/
theorem Front.exists_first (front : Front shape) :
    ∃ first more, lexemes shape = first :: more ∧ (first.startsPrimary = true ∨ level shape
        ≤ prefixLevel ∧ ∃ op : UnaryOp, op.isPostfix = false ∧ first = .mark op.mark) := by
  induction front with
  | leaf spelled starts _ => exact ⟨_, _, spelled, .inl starts⟩
  | paren spelled _ _ => exact ⟨_, _, spelled, .inl rfl⟩
  | leading op more isPrefix loose _ spelled =>
    exact ⟨_, more, spelled, .inr ⟨Nat.le_of_eq loose, op, isPrefix, rfl⟩⟩
  | trailing _ _ _ tighter spelled ih =>
    obtain ⟨first, more, headSpelled, starts⟩ := ih
    refine ⟨first, _, by rw [spelled, headSpelled, List.cons_append], starts.imp_right ?_⟩
    exact And.imp_left (Nat.le_trans tighter)
  | named name more _ spelled => exact ⟨_, _, spelled, .inl rfl⟩
  | listed more _ spelled => exact ⟨_, _, spelled, .inl rfl⟩

/-- What an operator may follow starts like a primary. -/
theorem exists_startsPrimary (formed : shape.All (IsFormed spelling))
    (operand : isOperand postfixLevel shape = true) :
    ∃ first more, lexemes shape = first :: more ∧ first.startsPrimary = true := by
  have tight := le_level operand
  obtain ⟨first, more, spelled, starts | ⟨loose, -⟩⟩ :=
    (front formed (isExpression_of_isOperand operand)).exists_first
  · exact ⟨first, more, spelled, starts⟩
  · simp only [postfixLevel, prefixLevel] at tight loose
    omega

/-- No expression is passed as the parameters of a lambda, if what comes after it goes on with
none. -/
theorem Front.closesParams_eq_false (front : Front shape) {after : List Lexeme}
    (noComma : ∀ rest, after ≠ .mark .comma :: rest)
    (noArrow : ∀ rest, after ≠ .mark .rparen :: .mark .arrow :: rest) :
    closesParams (lexemes shape ++ after) = false := by
  induction front generalizing after with
  | leaf spelled starts closed =>
    rw [spelled]
    unfold closesParams
    split <;> simp_all
  | paren spelled _ _ => rw [spelled]; rfl
  | leading op more isPrefix _ _ spelled => rw [spelled]; rfl
  | trailing _ joined _ _ spelled ih =>
    rw [spelled, List.append_assoc]
    refine ih ?_ ?_ <;> rintro rest same <;> simp_all [joins]
  | named name more _ spelled => rw [spelled]; rfl
  | listed more _ spelled => rw [spelled]; rfl

/-- An expression that is no lambda is not taken for one, if no arrow comes after it. -/
theorem Front.opensLambda_eq_false (front : Front shape)
    (plain : isLambda shape = false) {after : List Lexeme}
    (noArrow : ∀ rest, after ≠ .mark .arrow :: rest) :
    opensLambda (lexemes shape ++ after) = false := by
  induction front generalizing after with
  | leaf spelled starts closed =>
    rw [spelled]
    unfold opensLambda
    split <;> simp_all
  | @paren shape inner spelled inside _ =>
    obtain ⟨first, more, innerSpelled, starts⟩ := inside.exists_first
    have unclosed : first ≠ .mark .rparen := by
      rintro rfl
      rcases starts with starts | ⟨-, op, -, same⟩
      · cases starts
      · cases op <;> cases same
    have closes : closesParams (lexemes _ ++ .mark .rparen :: after) = false :=
      inside.closesParams_eq_false (by simp) (by simpa using noArrow)
    rw [spelled, List.cons_append, List.append_assoc]
    rw [innerSpelled] at closes ⊢
    simp only [List.cons_append, List.nil_append] at closes ⊢
    unfold opensLambda
    split <;> simp_all
  | leading op more isPrefix _ _ spelled =>
    rw [spelled]
    cases op <;> rfl
  | trailing _ joined plainHead _ spelled ih =>
    rw [spelled, List.append_assoc]
    refine ih plainHead ?_
    rintro rest same
    simp_all [joins]
  | named name more loose spelled => simp [loose] at plain
  | listed more loose spelled => simp [loose] at plain

/-- A parameter of a lambda is its name. -/
theorem exists_name_of_isBareParam (bare : isBareParam shape = true) :
    ∃ note name, shape = .node note (.param none name) := by
  rcases shape with ⟨note, form⟩
  cases form with
  | param type name =>
    cases type with
    | none => exact ⟨note, name, rfl⟩
    | some type => cases bare
  | _ => cases bare

/-- The parameters of a lambda are passed as such. -/
theorem closesParams_separated {params : List Shape} (bare : params.all isBareParam = true)
    (nonempty : params ≠ []) (after : List Lexeme) :
    closesParams (separated true params ++ .mark .rparen :: .mark .arrow :: after) = true := by
  induction params with
  | nil => exact absurd rfl nonempty
  | cons param params ih =>
    rw [List.all_cons, Bool.and_eq_true] at bare
    obtain ⟨note, name, rfl⟩ := exists_name_of_isBareParam bare.1
    cases params with
    | nil => simp [separated, lexemes, optional, closesParams]
    | cons other params =>
      rw [separated_true, ← separated_false (by simp)]
      simpa [lexemes, optional, closesParams] using ih bare.2 (by simp)

/-- A lambda is taken for one. -/
theorem opensLambda_of_isLambda (formed : IsFormed spelling shape)
    (lambda : isLambda shape = true) (after : List Lexeme) :
    opensLambda (lexemes shape ++ after) = true := by
  rcases shape with ⟨note, form⟩
  cases form with
  | lambda params body parenthesized =>
    obtain ⟨bare, single, -⟩ := formed
    by_cases listed : (parenthesized || params.length != 1) = true
    · simp only [lexemes, listed, if_true, List.cons_append, List.append_assoc, List.nil_append]
      cases params with
      | nil => rfl
      | cons param params =>
        have closes := closesParams_separated bare (by simp) (one body ++ after)
        obtain ⟨note, name, rfl⟩ :=
          exists_name_of_isBareParam (List.all_eq_true.1 bare param (.head _))
        rw [separated_true] at closes ⊢
        exact closes
    · simp only [Bool.or_eq_true, bne_iff_ne, ne_eq, not_or, Decidable.not_not] at listed
      obtain ⟨param, rfl⟩ := List.length_eq_one_iff.1 listed.2
      obtain ⟨note, name, rfl⟩ :=
        exists_name_of_isBareParam (List.all_eq_true.1 bare param (.head _))
      simp [lexemes, separated, optional, listed.1, opensLambda]
  | _ => cases lambda

end Shape

end Refactory
