import Refactory.Proofs.Grammar.Front
import Refactory.Proofs.Grammar.Run
import Refactory.Proofs.Term.Shape

/-!
# What is read is readable

Reading gives sound shapes, whatever the tokens are, as long as each of them could have been
scanned. The same walk through the grammar shows that no function runs out of its bound
where the bound grows with the number of tokens as `Parser.unitBound` does: between two calls at one
place in the text the bound falls by one, and each function has its own distance from the bottom
of the grammar.
-/
namespace Refactory

namespace Parser

open Shape Lexeme Meets

variable {spelling : Spelling}

/-- What reading one node comes to: a sound shape after some tokens, with facts about it, about the
lexemes of the tokens and about the lexeme after them. -/
def Reads (spelling : Spelling) (facts : Shape → List Lexeme → Lexeme → Prop) (tokens : List Token)
    (term : SourceTerm)
    (rest : List Token) : Prop :=
  ∃ used, tokens = used ++ rest ∧ 0 < used.length ∧ term.shape.All (IsSound spelling) ∧
    facts term.shape (Token.lexemes used) (Token.first rest)

/-- What reading a list of nodes comes to: sound shapes of one sort. -/
def ReadsAll (spelling : Spelling) (sort : Shape → Bool) (facts : List Shape → List Lexeme → Prop)
    (tokens : List Token)
    (terms : List SourceTerm) (rest : List Token) : Prop :=
  ∃ used, tokens = used ++ rest ∧
    (∀ term ∈ terms, term.shape.All (IsSound spelling) ∧ sort term.shape = true) ∧
    facts (terms.map Term.shape) (Token.lexemes used)

/-- Fewer tokens are left than there were. -/
class Fewer (rest tokens : List Token) : Prop where
  /-- The rest is shorter. -/
  length_lt : rest.length < tokens.length

namespace Fewer

variable {rest tokens : List Token}

/-- One token was taken. -/
instance of_cons (token : Token) : Fewer rest (token :: rest) :=
  ⟨Nat.lt_succ_self _⟩

/-- One token and what it opens were taken. -/
instance of_cons_append (token : Token)
    (used : List Token) : Fewer rest (token :: (used ++ rest)) :=
  ⟨by simp only [List.length_cons, List.length_append]; omega⟩

/-- One more token was taken. -/
instance cons (token : Token) [fewer : Fewer rest tokens] : Fewer rest (token :: tokens) :=
  ⟨Nat.lt_succ_of_lt fewer.length_lt⟩

/-- More tokens were taken. -/
instance append (used : List Token) [fewer : Fewer rest tokens] : Fewer rest (used ++ tokens) :=
  ⟨by have less := fewer.length_lt; simp only [List.length_append]; omega⟩

/-- At least one token was taken. -/
theorem of_used {used : List Token} (positive : 0 < used.length) : Fewer rest (used ++ rest) :=
  ⟨by simp only [List.length_append]; omega⟩

end Fewer

/-- The bound runs out only where it is smaller than the tokens and the distance of a function from
the bottom of the grammar demand. -/
def Short (bound : Nat) (tokens : List Token) (distance : Nat) : Prop :=
  bound < stepsPerToken * tokens.length + distance

namespace Short

variable {bound near far : Nat} {tokens rest : List Token}

theorem zero (positive : 0 < far) : Short 0 tokens far := by
  simp only [Short]
  omega

/-- A call at the same place goes down in the grammar. -/
theorem down (lower : near < far) (short : Short bound tokens near) :
    Short (bound + 1) tokens far := by
  simp only [Short] at short ⊢
  omega

/-- A larger distance allows for more. -/
theorem widen (le : near ≤ far) (short : Short bound tokens near) : Short bound tokens far := by
  simp only [Short] at short ⊢
  omega

/-- A call after some tokens may start anywhere in the grammar again. -/
theorem later [fewer : Fewer rest tokens] (low : near < stepsPerToken)
    (short : Short bound rest near) : Short bound tokens far := by
  have less := fewer.length_lt
  simp only [Short, stepsPerToken] at short low ⊢
  omega

/-- So may a call that is a step down. -/
theorem after [fewer : Fewer rest tokens] (low : near < stepsPerToken)
    (short : Short bound rest near) : Short (bound + 1) tokens far := by
  have less := fewer.length_lt
  simp only [Short, stepsPerToken] at short low ⊢
  omega

end Short

/-- A sound node has sound nodes below it. -/
theorem all_isSound {form : Term.Form Unit} (formed : IsFormed spelling (.node () form))
    (noDeclaration : ¬IsFalseDeclaration (.node () form))
    (below : ∀ child ∈ Term.parts form, child.All (IsSound spelling)) :
    Term.All (IsSound spelling) (.node () form) :=
  .intro ⟨formed, noDeclaration⟩ below

theorem all_map_shape {test : Shape → Bool} {terms : Option SourceTerm}
    (all : ∀ term ∈ terms, test term.shape = true) : (terms.map Term.shape).all test = true := by
  cases terms with
  | none => rfl
  | some term => exact all term rfl

/-- What the lookahead does not see in a text it does not see in one that agrees with its start. -/
theorem not_ahead {follows : Lexeme → Bool} {used spelled : List Lexeme} (after : List Lexeme)
    (echo : Echo used spelled) (quiet : ¬Ahead follows (used ++ after)) : ¬Ahead follows spelled :=
  fun ahead => quiet ((echo.symm.ahead ahead).append after)

/-- Reading a type. -/
def IsTypeRead (shape : Shape) (_ : List Lexeme) (_ : Lexeme) : Prop := isType shape = true

/-- Reading types and type arguments within a bound. -/
theorem meets_types (bound : Nat) :
    (∀ tokens, Token.Valid spelling tokens →
      Meets (typeRef bound) tokens (Reads spelling IsTypeRead tokens) True (Short bound tokens 1)) ∧
    (∀ tokens, Token.Valid spelling tokens →
      Meets (typeArguments bound) tokens (ReadsAll spelling isType (fun _ _ => True) tokens) True
        (Short bound tokens 2)) := by
  induction bound with
  | zero =>
    exact ⟨fun _ _ => .exhausted (.zero (by decide)), fun _ _ => .exhausted (.zero (by decide))⟩
  | succ bound ih =>
    constructor
    · intro tokens valid
      rw [typeRef]
      refine bind_here fun start => bind_name ?_ fun _ => trivial
      rintro name span rest rfl
      have finishing {used after : List Token} {arguments : List SourceTerm}
          (split : rest = used ++ after)
          (inside : ∀ term ∈ arguments, term.shape.All (IsSound spelling) ∧
            isType term.shape = true) :
          Meets (do
            let rank := Token.rank (← Parser.tokens)
            skip (2 * rank)
            finish start (.typeRef name arguments (min rank largestRank))) after
            (Reads spelling IsTypeRead (⟨.identifier name, span⟩ :: rest)) True
            (Short (bound + 1) (⟨.identifier name, span⟩ :: rest) 1) := by
        obtain ⟨suffixes, along, spelled⟩ := Token.exists_brackets after
        refine bind_tokens (bind_rank (Meets.finish fun _ => ?_))
        refine ⟨⟨.identifier name, span⟩ :: (used ++ suffixes), ?_, Nat.succ_pos _, ?_, rfl⟩
        · rw [split, List.cons_append, List.append_assoc, ← along]
        · refine all_isSound ⟨valid.head, ?_, Nat.min_le_right _ _⟩ id ?_
          · simpa using fun term member => (inside term member).2
          · simpa using fun term member => (inside term member).1
      refine bind_eat ?_ fun _ => @finishing [] _ _ rfl (by simp)
      rintro span' after rfl
      have call := ih.2 after valid.tail.tail
      refine bind_call call (.after (by decide)) ?_
      rintro arguments rest ⟨used, rfl, inside, -⟩
      exact @finishing (⟨.mark .lt, span'⟩ :: used) _ _ rfl inside
    · intro tokens valid
      rw [typeArguments]
      refine bind_call (ih.1 tokens valid) (.down (by decide)) ?_
      rintro first rest ⟨used, rfl, positive, sound, isType⟩
      refine bind_eat ?_ fun _ => bind_expect ?_ fun _ => trivial
      · rintro span after rfl
        have call := ih.2 after valid.right.tail
        refine bind_call call (.after (by decide)) ?_
        rintro others rest ⟨more, rfl, inside, -⟩
        refine .pure ⟨used ++ ⟨.mark .comma, span⟩ :: more, by simp, ?_, trivial⟩
        simpa using ⟨⟨sound, isType⟩, inside⟩
      · rintro span after rfl
        exact .pure ⟨used ++ [⟨.mark .gt, span⟩], by simp, by simpa using ⟨sound, isType⟩, trivial⟩

/-- Reading the parameter of a lambda. -/
def IsParamRead (shape : Shape) (used : List Lexeme) (_ : Lexeme) : Prop :=
  isBareParam shape = true ∧ ∃ name, used = [.identifier name] ∧ lexemes shape = used

/-- Reading the parameter of a lambda needs no bound. -/
theorem meets_lambdaParam (tokens : List Token) (valid : Token.Valid spelling tokens)
    {exhaustion : Prop} :
    Meets lambdaParam tokens (Reads spelling IsParamRead tokens) True exhaustion := by
  refine bind_here fun start => bind_name ?_ fun _ => trivial
  rintro name span rest rfl
  refine .finish fun _ => ⟨[⟨.identifier name, span⟩], rfl, by simp, ?_, rfl, name, rfl, rfl⟩
  rw [Term.shape_node]
  exact all_isSound ⟨rfl, valid.head⟩ id (by simp)

/-- Reading the parameters of a lambda within a bound. -/
theorem meets_lambdaParams (bound : Nat) (tokens : List Token)
    (valid : Token.Valid spelling tokens) :
    Meets (lambdaParams bound) tokens (ReadsAll spelling isBareParam (fun _ _ => True) tokens) True
      (Short bound tokens 1) := by
  induction bound generalizing tokens with
  | zero => exact .exhausted (.zero (by decide))
  | succ bound ih =>
    rw [lambdaParams]
    refine bind_atMark ?_
    split
    · exact .pure ⟨[], rfl, by simp, trivial⟩
    · refine Meets.bind (meets_lambdaParam tokens valid) ?_
      rintro first rest ⟨used, rfl, -, sound, bare, -⟩
      refine bind_eat ?_ fun _ => ?_
      · rintro span rest rfl
        refine bind_call (ih rest valid.right.tail) (.after (by decide)) ?_
        rintro others rest ⟨more, rfl, inside, -⟩
        refine .pure ⟨used ++ ⟨.mark .comma, span⟩ :: more, by simp, ?_, trivial⟩
        simpa using ⟨⟨sound, bare⟩, inside⟩
      · exact .pure ⟨used, rfl, by simpa using ⟨sound, bare⟩, trivial⟩

/-- Reading the parameters of a method within a bound. -/
theorem meets_methodParams (bound : Nat) (tokens : List Token)
    (valid : Token.Valid spelling tokens) :
    Meets (methodParams bound) tokens (ReadsAll spelling isTypedParam (fun _ _ => True) tokens) True
      (Short bound tokens 2) := by
  induction bound generalizing tokens with
  | zero => exact .exhausted (.zero (by decide))
  | succ bound ih =>
    rw [methodParams]
    refine bind_here fun start => ?_
    refine bind_call ((meets_types bound).1 tokens valid) (.down (by decide)) ?_
    rintro type rest ⟨used, rfl, -, soundType, isType⟩
    refine bind_name ?_ fun _ => trivial
    rintro name span rest rfl
    refine bind_finish fun _ => ?_
    have sound : Term.All (IsSound spelling) (.node () (.param (some type.shape) name)) :=
      all_isSound ⟨isType, valid.right.head⟩ id (by simpa using soundType)
    refine bind_eat ?_ fun _ => ?_
    · rintro span' rest rfl
      refine bind_call (ih rest valid.right.tail.tail) (.after (by decide)) ?_
      rintro others rest ⟨more, rfl, inside, -⟩
      refine .pure ⟨used ++ ⟨.identifier name, span⟩ :: ⟨.mark .comma, span'⟩ :: more, by simp, ?_,
        trivial⟩
      simpa using ⟨⟨sound, rfl⟩, inside⟩
    · exact .pure
        ⟨used ++ [⟨.identifier name, span⟩], by simp, by simpa using ⟨sound, rfl⟩, trivial⟩

/-- Reading an operand. -/
def IsOperandRead (least : Nat) (shape : Shape) (used : List Lexeme) (_ : Lexeme) : Prop :=
  isOperand least shape = true ∧ Echo used (lexemes shape)

/-- Reading a coalescing operation or what binds tighter. -/
def IsCoalesceRead (shape : Shape) (used : List Lexeme) (next : Lexeme) : Prop :=
  IsOperandRead BinaryOp.coalesce.precedence shape used next ∧
    (endsOpen shape = true → AssignOp.ofLexeme? next = none)

/-- Reading an expression of a sort. -/
def IsExpressionRead (sort : Shape → Bool) (shape : Shape) (used : List Lexeme) (next : Lexeme) :
    Prop :=
  sort shape = true ∧ Echo used (lexemes shape) ∧
    (swallows shape = true → AssignOp.ofLexeme? next = none)

/-- Reading a block. -/
def IsBlockRead (shape : Shape) (_ : List Lexeme) (_ : Lexeme) : Prop := isBlock shape = true

/-- Reading a statement. -/
def IsStatementRead (shape : Shape) (used : List Lexeme) (next : Lexeme) : Prop :=
  isStatement shape = true ∧ (endsOpenIf shape = true → next ≠ .keyword .else) ∧
    ∀ note expression, shape = .node note (.exprStmt expression) →
      Echo used (one expression ++ [Lexeme.mark .semi])

/-- What every function of the grammar does within a bound. -/
structure Walks (spelling : Spelling) (bound : Nat) : Prop where
  /-- Expressions are read. -/
  expression : ∀ tokens, Token.Valid spelling tokens → Meets (expression bound) tokens
    (Reads spelling (IsExpressionRead isExpression) tokens) True (Short bound tokens 12)
  /-- Assignments are read. -/
  assignment : ∀ tokens, Token.Valid spelling tokens → Meets (assignment bound) tokens
    (Reads spelling (IsExpressionRead isExpression) tokens) True (Short bound tokens 11)
  /-- Lambdas are read. -/
  lambda : ∀ tokens, Token.Valid spelling tokens → Meets (lambda bound) tokens
    (Reads spelling (IsExpressionRead isLambda) tokens) True (Short bound tokens 1)
  /-- Coalescing operations are read. -/
  coalesce : ∀ tokens, Token.Valid spelling tokens → Meets (coalesce bound) tokens
    (Reads spelling IsCoalesceRead tokens) True (Short bound tokens 10)
  /-- Binary operations are read. -/
  binary : ∀ level tokens, 2 ≤ level → level ≤ 8 → Token.Valid spelling tokens →
    Meets (binary bound level) tokens (Reads spelling (IsOperandRead level) tokens) True
      (Short bound tokens (11 - level))
  /-- Right operands are read. -/
  binaryRest : ∀ level start left before tokens, 2 ≤ level → level ≤ 7 →
    Token.Valid spelling tokens →
    0 < before.length → Term.All (IsSound spelling) (Term.shape left) →
    IsOperandRead level (Term.shape left) (Token.lexemes before) (Token.first tokens) →
    Meets (binaryRest bound level start left) tokens
      (Reads spelling (IsOperandRead level) (before ++ tokens)) True (Short bound tokens 1)
  /-- Operations with the operator in front are read. -/
  unary : ∀ tokens, Token.Valid spelling tokens → Meets (unary bound) tokens
    (Reads spelling (IsOperandRead prefixLevel) tokens) True (Short bound tokens 2)
  /-- What follows a receiver is read. -/
  postfixRest : ∀ start receiver before tokens, Token.Valid spelling tokens →
    0 < before.length → Term.All (IsSound spelling) (Term.shape receiver) →
    IsOperandRead postfixLevel (Term.shape receiver) (Token.lexemes before) (Token.first tokens) →
    Meets (postfixRest bound start receiver) tokens
      (Reads spelling (IsOperandRead postfixLevel) (before ++ tokens)) True (Short bound tokens 1)
  /-- Arguments are read. -/
  arguments : ∀ tokens, Token.Valid spelling tokens → Meets (arguments bound) tokens
    (ReadsAll spelling isArgument (fun _ _ => True) tokens) True (Short bound tokens 13)
  /-- Lists of expressions are read. -/
  expressions : ∀ tokens, Token.Valid spelling tokens → Meets (expressions bound) tokens
    (ReadsAll spelling isExpression
    (fun shapes used => shapes ≠ [] ∧ Echo used (separated true shapes)) tokens)
    True (Short bound tokens 13)
  /-- Primaries are read. -/
  primary : ∀ tokens, Token.Valid spelling tokens → Meets (primary bound) tokens
    (Reads spelling (IsOperandRead postfixLevel) tokens) True (Short bound tokens 1)
  /-- Blocks are read. -/
  block : ∀ tokens, Token.Valid spelling tokens → Meets (block bound) tokens
    (Reads spelling IsBlockRead tokens) True (Short bound tokens 1)
  /-- Lists of statements are read. -/
  statements : ∀ tokens, Token.Valid spelling tokens → Meets (statements bound) tokens
    (ReadsAll spelling isStatement (fun _ _ => True) tokens) True (Short bound tokens 14)
  /-- Statements are read. -/
  statement : ∀ tokens, Token.Valid spelling tokens → Meets (statement bound) tokens
    (Reads spelling IsStatementRead tokens) True (Short bound tokens 13)
  /-- Headers are read. -/
  parenthesized : ∀ tokens, Token.Valid spelling tokens → Meets (parenthesized bound) tokens
    (Reads spelling (fun shape _ _ => isExpression shape = true) tokens) True (Short bound tokens 1)
  /-- Optional expressions are read. -/
  optional : ∀ ending tokens, Token.Valid spelling tokens → Meets (optional bound ending) tokens
    (fun term rest => ReadsAll spelling isExpression (fun _ _ => True) tokens term.toList rest) True
    (Short bound tokens 13)
  /-- Declared variables are read. -/
  declarators : ∀ tokens, Token.Valid spelling tokens → Meets (declarators bound) tokens
    (ReadsAll spelling isDeclarator (fun shapes _ => shapes ≠ []) tokens) True
    (Short bound tokens 1)
  /-- Counted loops are read. -/
  forLoop : ∀ tokens, Token.Valid spelling tokens → Meets (forLoop bound) tokens
    (Reads spelling IsStatementRead tokens) True (Short bound tokens 1)

namespace Walks

variable {bound : Nat} {tokens : List Token}

/-- Without a bound nothing is read. -/
theorem zero : Walks spelling 0 := by
  constructor <;> intros <;> exact .exhausted (.zero (by omega))

/-- A node that is no statement by itself is no expression statement either. -/
theorem isStatementRead {form : Term.Form Unit} {used : List Lexeme} {next : Lexeme}
    (statement : form.isStatement = true) (other : ∀ expression, form ≠ .exprStmt expression)
    (closed : endsOpenIf (.node () form) = true → next ≠ .keyword .else) :
    IsStatementRead (.node () form) used next := by
  refine ⟨statement, closed, ?_⟩
  rintro note expression same
  exact (other expression (Term.node.inj same).2).elim

/-- A declaration is sound when its type and its variables are. -/
theorem sound_localDecl {type : SourceTerm} {declarators : List SourceTerm}
    (sound : type.shape.All (IsSound spelling)) (isType : isType type.shape = true)
    (inside : ∀ term ∈ declarators, term.shape.All (IsSound spelling) ∧
      isDeclarator term.shape = true)
    (nonempty : declarators ≠ []) :
    Term.All (IsSound spelling)
    (.node () (Term.mapForm (fun _ => ()) (.localDecl (some type) declarators))) := by
  refine all_isSound ⟨isType, by simpa using nonempty, ?_⟩ id ?_
  · simpa using fun term member => (inside term member).2
  · simpa [sound] using fun term member => (inside term member).1

/-- A counted loop is sound when its parts are and its initializers are not taken for a
declaration. -/
theorem sound_forLoop {span : Span} {declaration condition : Option SourceTerm}
    {initializers incrementors : List SourceTerm} {body : SourceTerm}
    (declares : ∀ term ∈ declaration, term.shape.All (IsSound spelling) ∧
      isDeclaration term.shape = true)
    (single : declaration.isSome → initializers = [])
    (inside : ∀ term ∈ initializers, term.shape.All (IsSound spelling) ∧
      isExpression term.shape = true)
    (quiet : declaration = none → ¬Ahead followsDeclared
      (separated true (initializers.map Term.shape) ++ [Lexeme.mark .semi]))
    (isCondition : ∀ term ∈ condition, term.shape.All (IsSound spelling) ∧
      isExpression term.shape = true)
    (areSteps : ∀ term ∈ incrementors, term.shape.All (IsSound spelling) ∧
      isExpression term.shape = true)
    (statement : body.shape.All (IsSound spelling) ∧ isStatement body.shape = true) :
    Term.All (IsSound spelling) (Term.shape
      (.node span (.forLoop declaration initializers condition incrementors (some body)))) := by
  simp only [Term.shape_node, Term.mapForm, Term.mapSome_unit, Term.mapAll_unit]
  refine all_isSound ⟨all_map_shape fun term member => (declares term member).2, ?_, ?_,
    all_map_shape fun term member => (isCondition term member).2, ?_, statement.2⟩ ?_ ?_
  · simpa using single
  · simpa using fun term member => (inside term member).2
  · simpa using fun term member => (areSteps term member).2
  · cases declaration with
    | some declaration => exact id
    | none => exact quiet rfl
  · intro child member
    simp only [Term.mem_parts, Kind.slots, List.mem_cons, List.not_mem_nil, or_false,
      exists_eq_or_imp, exists_eq_left, Slot.terms, Option.mem_toList, Option.map_eq_some_iff,
      List.mem_map, Option.map_some, Option.some.injEq] at member
    rcases member with ⟨term, member, rfl⟩ | ⟨term, member, rfl⟩ | ⟨term, member, rfl⟩ |
      ⟨term, member, rfl⟩ | rfl
    · exact (declares term member).1
    · exact (inside term member).1
    · exact (isCondition term member).1
    · exact (areSteps term member).1
    · exact statement.1

variable (walks : Walks spelling bound) (valid : Token.Valid spelling tokens)

include walks valid

/-- An expression is a lambda or an assignment. -/
theorem expression_succ :
    Meets (Parser.expression (bound + 1)) tokens
    (Reads spelling (IsExpressionRead isExpression) tokens) True (Short (bound + 1) tokens 12) := by
  rw [Parser.expression]
  refine bind_tokens ?_
  split
  · refine (walks.lambda tokens valid).mono ?_ id (.down (by decide))
    rintro term rest ⟨used, split, positive, sound, isLambda, facts⟩
    exact ⟨used, split, positive, sound, isExpression_of_isLambda isLambda, facts⟩
  · exact (walks.assignment tokens valid).mono (fun _ _ reads => reads) id (.down (by decide))

/-- The value of an assignment may be any expression. -/
theorem assignment_succ :
    Meets (Parser.assignment (bound + 1)) tokens
    (Reads spelling (IsExpressionRead isExpression) tokens) True (Short (bound + 1) tokens 11) := by
  rw [Parser.assignment]
  refine bind_here fun start => ?_
  refine bind_call (walks.coalesce tokens valid) (.down (by decide)) ?_
  rintro target rest ⟨used, rfl, positive, sound, ⟨operand, echo⟩, closed⟩
  refine bind_lexeme ?_
  split
  · rename_i op isOp
    obtain ⟨span, rest, rfl⟩ := exists_of_first (by simp) (AssignOp.ofLexeme?_eq_some.1 isOp)
    have notOpen : endsOpen target.shape = false := by
      rw [Bool.eq_false_iff]
      intro isOpen
      cases isOp.symm.trans (closed isOpen)
    refine bind_advance (by simp) ?_
    refine bind_call (walks.expression rest valid.right.tail) (.after (by decide)) ?_
    rintro value rest ⟨more, rfl, -, soundValue, isValue, echoValue, next⟩
    refine .finish fun _ => ⟨used ++ ⟨.mark op.mark, span⟩ ::
      more, by simp, List.length_pos_of_ne_nil (by simp), ?_, rfl, ?_, ?_⟩
    · rw [Term.shape_node]
      refine all_isSound ⟨?_, isValue⟩ id ?_
      · simp [operand, notOpen]
      · simp [sound, soundValue]
    · simpa [lexemes, one] using echo.append (echoValue.cons _)
    · simpa [swallows] using next
  · rename_i noOp
    exact .pure ⟨used, rfl, positive, sound, isExpression_of_isOperand operand, echo, fun _ => noOp⟩

/-- A lambda goes on to the end of its body. -/
theorem lambda_succ :
    Meets (Parser.lambda (bound + 1)) tokens
      (Reads spelling (IsExpressionRead isLambda) tokens) True (Short (bound + 1) tokens 1) := by
  rw [Parser.lambda]
  refine bind_here fun start => ?_
  have finishing {header rest : List Token} {params : List SourceTerm} {parenthesized : Bool}
      (split : tokens = header ++ rest) (positive : 0 < header.length)
      (bare : ∀ param ∈ params, param.shape.All (IsSound spelling) ∧ isBareParam param.shape = true)
      (single : parenthesized = true ∨ params.length = 1)
      (opening : ∀ tail body, Echo (Token.lexemes header ++ Lexeme.mark .arrow :: tail)
        (lexemes (.node () (.lambda (params.map Term.shape) (some body) parenthesized)))) :
      Meets (do
        expect .arrow
        let body ← if ← atMark .lbrace then Parser.block bound else Parser.expression bound
        finish start (.lambda params (some body) parenthesized)) rest
        (Reads spelling (IsExpressionRead isLambda) tokens) True (Short (bound + 1) tokens 1) := by
    subst split
    refine bind_expect ?_ fun _ => trivial
    rintro span rest rfl
    have sound {body : SourceTerm} (isBody : (isBlock body.shape || isExpression body.shape) = true)
        (inside : body.shape.All (IsSound spelling)) : Term.All (IsSound spelling)
          (.node () (.lambda (params.map Term.shape) (some body.shape) parenthesized)) := by
      refine all_isSound ⟨?_, ?_, isBody⟩ id ?_
      · simpa using fun param member => (bare param member).2
      · simpa using single
      · rintro child member
        simp only [Term.mem_parts, Kind.slots, List.mem_cons, List.not_mem_nil, or_false,
          exists_eq_or_imp, Slot.terms, List.mem_map, exists_eq_left, Option.toList_some] at member
        rcases member with ⟨param, member, rfl⟩ | rfl
        · exact (bare param member).1
        · exact inside
    refine bind_atMark ?_
    split
    · refine bind_call (walks.block rest valid.right.tail) (.after (by decide)) ?_
      rintro body rest ⟨more, rfl, -, inside, isBody⟩
      refine .finish fun _ => ⟨header ++ ⟨.mark .arrow, span⟩ ::
        more, by simp, List.length_pos_of_ne_nil (by simp), ?_, rfl, ?_, ?_⟩
      · simpa using sound (by simp [show isBlock body.shape = true from isBody]) inside
      · simpa using opening (Token.lexemes more) body.shape
      · simp [swallows_lambda, show isBlock body.shape = true from isBody]
    · refine bind_call (walks.expression rest valid.right.tail) (.after (by decide)) ?_
      rintro body rest ⟨more, rfl, -, inside, isBody, -, next⟩
      refine .finish fun _ => ⟨header ++ ⟨.mark .arrow, span⟩ ::
        more, by simp, List.length_pos_of_ne_nil (by simp), ?_, rfl, ?_, ?_⟩
      · simpa using sound (by simp [isBody]) inside
      · simpa using opening (Token.lexemes more) body.shape
      · simpa [swallows_lambda] using fun _ => next
  refine bind_eat ?_ fun _ => ?_
  · rintro span rest rfl
    refine bind_call (meets_lambdaParams bound rest valid.tail) (.after (by decide)) ?_
    rintro params rest ⟨used, rfl, bare, -⟩
    refine bind_expect ?_ fun _ => trivial
    rintro span' rest rfl
    have split : ⟨.mark .lparen, span⟩ :: (used ++ ⟨.mark .rparen, span'⟩ :: rest)
        = (⟨.mark .lparen, span⟩ :: (used ++ [⟨.mark .rparen, span'⟩])) ++ rest := by simp
    refine finishing split (by simp) bare (.inl rfl) fun tail body => ?_
    simp only [lexemes, Bool.true_or, if_true, Token.lexemes_cons, List.cons_append]
    exact Echo.wall rfl
  · refine Meets.bind (meets_lambdaParam tokens valid) ?_
    rintro param rest ⟨used, rfl, positive, sound, bare, name, spelled, named⟩
    refine bind_pure ?_
    refine finishing rfl positive (by simpa using ⟨sound, bare⟩) (.inr rfl) fun tail body => ?_
    simp only [lexemes, spelled, named, List.map_cons, List.map_nil, List.length_singleton,
      bne_self_eq_false, Bool.or_false, Bool.false_eq_true, if_false, separated, if_true,
      List.nil_append, List.append_nil]
    exact (Echo.wall rfl).cons _

/-- The right operand of a coalescing operation may be another one or a lambda. -/
theorem coalesce_succ :
    Meets (Parser.coalesce (bound + 1)) tokens (Reads spelling IsCoalesceRead tokens) True
      (Short (bound + 1) tokens 10) := by
  rw [Parser.coalesce]
  refine bind_here fun start => ?_
  refine bind_call (walks.binary _ tokens (by decide) (by decide) valid) (.down (by decide)) ?_
  rintro left rest ⟨used, rfl, positive, sound, operand, echo⟩
  have finishing {span : Span} {more rest : List Token} {right : SourceTerm}
      (sides : isOperand BinaryOp.coalesce.precedence right.shape || isLambda right.shape)
      (inside : right.shape.All (IsSound spelling))
      (echoRight : Echo (Token.lexemes more) (lexemes right.shape))
      (closed : endsOpen right.shape = true → AssignOp.ofLexeme? (Token.first rest) = none) :
      Meets (finish start (.binary .coalesce (some left) (some right))) rest
        (Reads spelling IsCoalesceRead (used ++ ⟨.mark .questionQuestion, span⟩ :: (more ++ rest)))
        True
        (Short (bound + 1) (used ++ ⟨.mark .questionQuestion, span⟩ :: (more ++ rest)) 10) := by
    refine .finish fun _ => ⟨used ++ ⟨.mark .questionQuestion, span⟩ ::
      more, by simp, List.length_pos_of_ne_nil (by simp), ?_, ⟨rfl, ?_⟩, ?_⟩
    · rw [Term.shape_node]
      refine all_isSound ?_ id (by simp [sound, inside])
      simpa [IsFormed] using ⟨operand, by simpa using sides⟩
    · simpa [lexemes, one, BinaryOp.mark] using echo.append (echoRight.cons _)
    · simpa [endsOpen] using closed
  refine bind_eat ?_ fun _ => ?_
  · rintro span rest rfl
    refine bind_tokens ?_
    split
    · refine bind_call (walks.lambda rest valid.right.tail) (.after (by decide)) ?_
      rintro right rest ⟨more, rfl, -, inside, isRight, echoRight, closed⟩
      rw [← endsOpen_of_isLambda isRight] at closed
      exact finishing (by simp [isRight]) inside echoRight closed
    · refine bind_call (walks.coalesce rest valid.right.tail) (.after (by decide)) ?_
      rintro right rest ⟨more, rfl, -, inside, ⟨isRight, echoRight⟩, closed⟩
      exact finishing (by simp [isRight]) inside echoRight closed
  · refine .pure ⟨used, rfl, positive, sound, ⟨isOperand_of_le (by decide) operand, echo⟩, ?_⟩
    simp [endsOpen_eq_false operand]

/-- The operands of an operation of one precedence bind tighter, or as tight on the left. -/
theorem binary_succ {level : Nat} (low : 2 ≤ level) (high : level ≤ 8) :
    Meets (Parser.binary (bound + 1) level) tokens
    (Reads spelling (IsOperandRead level) tokens) True (Short (bound + 1) tokens (11 - level)) := by
  rw [Parser.binary]
  split
  · rename_i tight
    simp only [BinaryOp.tightest] at tight
    obtain rfl : level = 8 := by omega
    exact (walks.unary tokens valid).mono (fun _ _ reads => reads) id (.down (by decide))
  · rename_i loose
    simp only [BinaryOp.tightest] at loose
    refine bind_here fun start => ?_
    refine bind_call (walks.binary (level + 1) tokens (by omega) (by omega) valid)
      (.down (by omega)) ?_
    rintro left rest ⟨used, rfl, positive, sound, operand, echo⟩
    have weaker : isOperand level left.shape = true := isOperand_of_le (by omega) operand
    refine (walks.binaryRest level start left used rest low (by omega) valid.right positive sound
      ⟨weaker, echo⟩).mono (fun _ _ reads => reads) id ?_
    intro short
    have fewer : Fewer rest (used ++ rest) := .of_used positive
    exact short.after (by decide)

/-- The operators of one precedence are read from the left to the right. -/
theorem binaryRest_succ {level : Nat} {start : Span} {left : SourceTerm} {before : List Token}
    (low : 2 ≤ level) (high : level ≤ 7)
    (positive : 0 < before.length) (sound : left.shape.All (IsSound spelling))
    (read : IsOperandRead level left.shape (Token.lexemes before) (Token.first tokens)) :
    Meets (Parser.binaryRest (bound + 1) level start left) tokens
      (Reads spelling (IsOperandRead level) (before ++ tokens)) True
      (Short (bound + 1) tokens 1) := by
  have stop : Meets (pure left : Parser SourceTerm) tokens
      (Reads spelling (IsOperandRead level) (before ++ tokens)) True (Short (bound + 1) tokens 1) :=
    .pure ⟨before, rfl, positive, sound, read⟩
  rw [Parser.binaryRest]
  refine bind_lexeme ?_
  split
  · rename_i op isOp
    split
    · rename_i same
      obtain ⟨span, rest, rfl⟩ := exists_of_first (by simp) (BinaryOp.ofLexeme?_eq_some.1 isOp)
      refine bind_advance (by simp) ?_
      refine bind_call (walks.binary (level + 1) rest (by omega) (by omega) valid.tail)
        (.after (by simp only [stepsPerToken]; omega)) ?_
      rintro right rest ⟨more, rfl, -, soundRight, operand, echo⟩
      refine bind_finish fun span' => ?_
      have further := walks.binaryRest level start (.node span' (.binary op left right))
        (before ++ ⟨.mark op.mark, span⟩ :: more) rest low high valid.tail.right
        (List.length_pos_of_ne_nil (by simp)) ?_ ?_
      · refine further.mono (fun term rest reads => ?_) id (.after (by decide))
        simpa using reads
      · rw [Term.shape_node]
        refine all_isSound ?_ id (by simp [sound, soundRight])
        have notCoalesce : op ≠ .coalesce := by
          rintro rfl
          simp only [BinaryOp.precedence] at same
          omega
        simpa [IsFormed, notCoalesce, same] using ⟨read.1, operand⟩
      · refine ⟨?_, ?_⟩
        · simp [isOperand, Shape.level, Term.kind, Kind.isExpression, same]
        · simpa [lexemes, one] using read.2.append (echo.cons _)
    · exact stop
  · exact stop

/-- The operand of an operator in front may start with another one. -/
theorem unary_succ :
    Meets (Parser.unary (bound + 1)) tokens (Reads spelling (IsOperandRead prefixLevel) tokens) True
      (Short (bound + 1) tokens 2) := by
  rw [Parser.unary]
  refine bind_lexeme ?_
  split
  · rename_i op isOp
    obtain ⟨same, isPrefix⟩ := UnaryOp.ofLeadingLexeme?_eq_some.1 isOp
    obtain ⟨span, rest, rfl⟩ := exists_of_first (by simp) same
    refine bind_here fun start => bind_advance (by simp) ?_
    refine bind_call (walks.unary rest valid.tail) (.after (by decide)) ?_
    rintro operand rest ⟨more, rfl, -, sound, isOperand, echo⟩
    refine .finish fun _ => ⟨⟨.mark op.mark, span⟩ :: more, by simp, by simp, ?_, ?_, ?_⟩
    · rw [Term.shape_node]
      refine all_isSound ?_ id (by simp [sound])
      simpa [IsFormed, isPrefix] using isOperand
    · simp [Shape.isOperand, Shape.level, Term.kind, Kind.isExpression, isPrefix, prefixLevel]
    · simpa [lexemes, one, isPrefix] using echo.cons _
  · refine bind_here fun start => ?_
    refine bind_call (walks.primary tokens valid) (.down (by decide)) ?_
    rintro receiver rest ⟨used, rfl, positive, sound, read⟩
    have fewer : Fewer rest (used ++ rest) := .of_used positive
    refine (walks.postfixRest start receiver used rest valid.right positive sound read).mono ?_ id
      (.after (by decide))
    rintro term rest ⟨used, split, positive, sound, operand, echo⟩
    exact ⟨used, split, positive, sound, isOperand_of_le (by decide) operand, echo⟩

/-- What follows a receiver makes a receiver of it again. -/
theorem postfixRest_succ {start : Span} {receiver : SourceTerm} {before : List Token}
    (positive : 0 < before.length)
    (sound : receiver.shape.All (IsSound spelling))
    (read : IsOperandRead postfixLevel receiver.shape (Token.lexemes before) (Token.first tokens)) :
    Meets (Parser.postfixRest (bound + 1) start receiver) tokens
      (Reads spelling (IsOperandRead postfixLevel) (before ++ tokens)) True
      (Short (bound + 1) tokens 1) := by
  have extend (more : List Token) {rest : List Token} {span : Span} {form : Term.Form Span}
      (split : tokens = more ++ rest) (further : 0 < more.length)
      (operand : isOperand postfixLevel (Term.shape (.node span form)) = true)
      (inside : Term.All (IsSound spelling) (Term.shape (.node span form)))
      (echo : Echo (Token.lexemes before ++ Token.lexemes more)
        (lexemes (Term.shape (.node span form)))) :
      Meets (Parser.postfixRest bound start (.node span form)) rest
        (Reads spelling (IsOperandRead postfixLevel) (before ++ tokens)) True
        (Short (bound + 1) tokens 1) := by
    subst split
    have step := walks.postfixRest start (.node span form) (before ++ more) rest valid.right
      (by rw [List.length_append]; omega) inside ⟨operand, by rwa [Token.lexemes_append]⟩
    have fewer : Fewer rest (more ++ rest) := .of_used further
    exact step.mono (fun term rest reads => by simpa using reads) id (.after (by decide))
  have access {next : Mark} {conditional : Bool}
      (mark : next = if conditional then .questionDot else .dot)
      (front : Token.first tokens = .mark next) :
      Meets (do
        Parser.advance
        let name ← Parser.name
        let access ← finish start (.member (some receiver) name conditional)
        Parser.postfixRest bound start access) tokens
        (Reads spelling (IsOperandRead postfixLevel) (before ++ tokens)) True
        (Short (bound + 1) tokens 1) := by
    obtain ⟨span, rest, rfl⟩ := exists_of_first (by simp) front
    refine bind_advance (by simp) (bind_name ?_ fun _ => trivial)
    rintro name span' rest rfl
    refine bind_finish fun _ => extend [_, _] rfl (by simp) rfl ?_ ?_
    · rw [Term.shape_node]
      exact all_isSound ⟨read.1, valid.tail.head⟩ id (by simpa using sound)
    · simpa [lexemes, one, mark] using read.2.append (Echo.refl _)
  have operation {op : UnaryOp} (isPostfix : op.isPostfix = true)
      (front : Token.first tokens = .mark op.mark) :
      Meets (do
        Parser.advance
        let operation ← finish start (.unary op (some receiver))
        Parser.postfixRest bound start operation) tokens
        (Reads spelling (IsOperandRead postfixLevel) (before ++ tokens)) True
        (Short (bound + 1) tokens 1) := by
    obtain ⟨span, rest, rfl⟩ := exists_of_first (by simp) front
    refine bind_advance (by simp) (bind_finish fun _ => extend [_] rfl (by simp) ?_ ?_ ?_)
    · simp [isOperand, Shape.level, Term.kind, Kind.isExpression, isPostfix, postfixLevel]
    · rw [Term.shape_node]
      exact all_isSound (by simpa [IsFormed, isPostfix] using read.1) id (by simpa using sound)
    · simpa [lexemes, one, isPostfix] using read.2.append (Echo.refl _)
  rw [Parser.postfixRest]
  refine bind_lexeme ?_
  split
  · exact @access .dot false rfl ‹_›
  · exact @access .questionDot true rfl ‹_›
  · rename_i next
    obtain ⟨span, rest, rfl⟩ := exists_of_first (by simp) next
    refine bind_advance (by simp) ?_
    refine bind_call (walks.arguments rest valid.tail) (.after (by decide)) ?_
    rintro arguments rest ⟨used, rfl, inside, -⟩
    refine bind_expect ?_ fun _ => trivial
    rintro span' rest rfl
    refine bind_finish fun _ => extend (⟨.mark .lparen, span⟩ :: (used ++ [⟨.mark .rparen, span'⟩]))
      (by simp) (by simp) rfl ?_ ?_
    · rw [Term.shape_node]
      refine all_isSound ⟨read.1, ?_⟩ id ?_
      · simpa using fun term member => (inside term member).2
      · simpa [sound] using fun term member => (inside term member).1
    · simp only [Term.shape_node, Term.mapForm, Term.mapSome_unit, Option.map_some, lexemes, one]
      exact read.2.append (Echo.wall rfl)
  · rename_i next
    obtain ⟨span, rest, rfl⟩ := exists_of_first (by simp) next
    refine bind_advance (by simp) ?_
    refine bind_call (walks.expressions rest valid.tail) (.after (by decide)) ?_
    rintro arguments rest ⟨used, rfl, inside, nonempty, echo⟩
    refine bind_expect ?_ fun _ => trivial
    rintro span' rest rfl
    refine bind_finish fun _ =>
      extend (⟨.mark .lbracket, span⟩ :: (used ++ [⟨.mark .rbracket, span'⟩])) (by simp)
        (by simp) rfl ?_ ?_
    · rw [Term.shape_node]
      refine all_isSound ⟨read.1, by simpa using nonempty, ?_⟩ id ?_
      · simpa using fun term member => (inside term member).2
      · simpa [sound] using fun term member => (inside term member).1
    · simpa [lexemes, one] using read.2.append ((echo.append (Echo.refl [.mark .rbracket])).cons _)
  · exact @operation .postInc rfl ‹_›
  · exact @operation .postDec rfl ‹_›
  · exact .pure ⟨before, rfl, positive, sound, read⟩

/-- A comma may follow the last argument of a call. -/
theorem arguments_succ :
    Meets (Parser.arguments (bound + 1)) tokens
    (ReadsAll spelling isArgument (fun _ _ => True) tokens) True (Short (bound + 1) tokens 13) := by
  rw [Parser.arguments]
  refine bind_atMark ?_
  split
  · exact .pure ⟨[], rfl, by simp, trivial⟩
  · refine bind_here fun start => bind_lexeme ?_
    have finishing {before rest : List Token} {modifier : Modifier}
        (split : tokens = before ++ rest)
        (within : Short bound rest 12 → Short (bound + 1) tokens 13) :
        Meets (do
          let value ← Parser.expression bound
          let first ← finish start (.argument modifier (some value))
          if ← eat .comma then
            return first :: (← Parser.arguments bound)
          else
            return [first]) rest
          (ReadsAll spelling isArgument (fun _ _ => True) tokens) True
          (Short (bound + 1) tokens 13) := by
      subst split
      refine bind_call (walks.expression rest valid.right) within ?_
      rintro value rest ⟨used, rfl, positive, sound, isValue, -⟩
      refine bind_finish fun _ => ?_
      have soundFirst :
          Term.All (IsSound spelling) (.node () (.argument modifier (some value.shape))) :=
        all_isSound isValue id (by simpa using sound)
      refine bind_eat ?_ fun _ => ?_
      · rintro span rest rfl
        refine bind_call (walks.arguments rest valid.right.right.tail) (.after (by decide)) ?_
        rintro others rest ⟨more, rfl, inside, -⟩
        refine .pure ⟨before ++ (used ++ ⟨.mark .comma, span⟩ :: more), by simp, ?_, trivial⟩
        simpa using ⟨⟨soundFirst, rfl⟩, inside⟩
      · exact .pure ⟨before ++ used, by simp, by simpa using ⟨soundFirst, rfl⟩, trivial⟩
    dsimp only
    split
    · exact @finishing [] _ _ rfl (.down (by decide))
    · rename_i keyword
      cases tokens with
      | nil => exact absurd rfl keyword
      | cons token rest =>
        refine bind_advance ?_ (@finishing [token] _ _ rfl (.after (by decide)))
        intro same
        simp [Token.first, same, Modifier.ofLexeme] at keyword

/-- Expressions are read up to the last comma. -/
theorem expressions_succ :
    Meets (Parser.expressions (bound + 1)) tokens (ReadsAll spelling isExpression
        (fun shapes used => shapes ≠ [] ∧ Echo used (separated true shapes)) tokens)
      True (Short (bound + 1) tokens 13) := by
  rw [Parser.expressions]
  refine bind_call (walks.expression tokens valid) (.down (by decide)) ?_
  rintro first rest ⟨used, rfl, -, sound, isValue, echo, -⟩
  refine bind_eat ?_ fun _ => ?_
  · rintro span rest rfl
    refine bind_call (walks.expressions rest valid.right.tail) (.after (by decide)) ?_
    rintro others rest ⟨more, rfl, inside, nonempty, echoes⟩
    refine .pure ⟨used ++ ⟨.mark .comma, span⟩ :: more, by simp, ?_, by simp, ?_⟩
    · simpa using ⟨⟨sound, isValue⟩, inside⟩
    · have rest := separated_false nonempty ▸ echoes.cons (.mark .comma)
      simpa [separated] using echo.append rest
  · exact .pure
      ⟨used, rfl, by simpa using ⟨sound, isValue⟩, by simp, by simpa [separated] using echo⟩

/-- A primary is one token or an expression in parentheses. -/
theorem primary_succ :
    Meets (Parser.primary (bound + 1)) tokens
      (Reads spelling (IsOperandRead postfixLevel) tokens) True (Short (bound + 1) tokens 1) := by
  rw [Parser.primary]
  refine bind_lexeme ?_
  have leaf (lexeme : Lexeme) {form : Term.Form Span} (front : Token.first tokens = lexeme)
      (more : lexeme ≠ .endOfInput)
      (sound : lexeme.IsValid spelling →
        Term.All (IsSound spelling) (.node () (Term.mapForm (fun _ => ()) form)))
      (tight : isOperand postfixLevel (.node () (Term.mapForm (fun _ => ()) form)) = true)
      (spelled : lexemes (.node () (Term.mapForm (fun _ => ()) form)) = [lexeme]) :
      Meets (Parser.literal form) tokens (Reads spelling (IsOperandRead postfixLevel) tokens) True
        (Short (bound + 1) tokens 1) := by
    obtain ⟨span, rest, rfl⟩ := exists_of_first more front
    refine Meets.literal more fun _ => ⟨[⟨lexeme, span⟩], rfl, by simp, ?_, ?_, ?_⟩
    · rw [Term.shape_node]
      exact sound valid.head
    · rwa [Term.shape_node]
    · rw [Term.shape_node, spelled]
      exact Echo.refl _
  split
  · have sound {value : Nat} (small : value ≤ largestInteger) :
        Term.All (IsSound spelling) (.node () (.int value)) :=
      all_isSound ⟨Int.natCast_nonneg _, Int.ofNat_le.2 small⟩ id (by simp)
    exact leaf (.integer _) ‹_› (by simp) sound rfl rfl
  · exact leaf (.text _) ‹_› (by simp) (fun valid => all_isSound valid id (by simp)) rfl rfl
  · exact leaf (.keyword .true) ‹_› (by simp) (fun _ => all_isSound trivial id (by simp)) rfl rfl
  · exact leaf (.keyword .false) ‹_› (by simp) (fun _ => all_isSound trivial id (by simp)) rfl rfl
  · exact leaf (.keyword .null) ‹_› (by simp) (fun _ => all_isSound trivial id (by simp)) rfl rfl
  · exact leaf (.identifier _) ‹_› (by simp) (fun valid => all_isSound valid id (by simp)) rfl rfl
  · rename_i next
    obtain ⟨span, rest, rfl⟩ := exists_of_first (by simp) next
    refine bind_here fun start => bind_advance (by simp) ?_
    refine bind_call (walks.expression rest valid.tail) (.after (by decide)) ?_
    rintro inner rest ⟨used, rfl, -, sound, isValue, -⟩
    refine bind_expect ?_ fun _ => trivial
    rintro span' rest rfl
    refine .finish fun _ => ⟨⟨.mark .lparen, span⟩ :: (used ++ [⟨.mark .rparen, span'⟩]), by simp,
      by simp, ?_, rfl, ?_⟩
    · rw [Term.shape_node]
      exact all_isSound isValue id (by simpa using sound)
    · exact Echo.wall rfl
  · exact Meets.refuse trivial

/-- A block holds statements up to its closing brace. -/
theorem block_succ :
    Meets (Parser.block (bound + 1)) tokens (Reads spelling IsBlockRead tokens) True
      (Short (bound + 1) tokens 1) := by
  rw [Parser.block]
  refine bind_here fun start => bind_expect ?_ fun _ => trivial
  rintro span rest rfl
  refine bind_call (walks.statements rest valid.tail) (.after (by decide)) ?_
  rintro statements rest ⟨used, rfl, inside, -⟩
  refine bind_expect ?_ fun _ => trivial
  rintro span' rest rfl
  refine .finish fun _ => ⟨⟨.mark .lbrace, span⟩ :: (used ++ [⟨.mark .rbrace, span'⟩]), by simp,
    by simp, ?_, rfl⟩
  rw [Term.shape_node]
  refine all_isSound ?_ id ?_
  · simpa [IsFormed] using fun term member => (inside term member).2
  · simpa using fun term member => (inside term member).1

/-- Statements are read one after the other. -/
theorem statements_succ :
    Meets (Parser.statements (bound + 1)) tokens
      (ReadsAll spelling isStatement (fun _ _ => True) tokens) True
        (Short (bound + 1) tokens 14) := by
  rw [Parser.statements]
  refine bind_lexeme ?_
  split
  · exact .pure ⟨[], rfl, by simp, trivial⟩
  · exact .pure ⟨[], rfl, by simp, trivial⟩
  · refine bind_call (walks.statement tokens valid) (.down (by decide)) ?_
    rintro first rest ⟨used, rfl, positive, sound, statement, -⟩
    have fewer : Fewer rest (used ++ rest) := .of_used positive
    refine bind_call (walks.statements rest valid.right) (.after (by decide)) ?_
    rintro others rest ⟨more, rfl, inside, -⟩
    exact .pure ⟨used ++ more, by simp, by simpa using ⟨⟨sound, statement⟩, inside⟩, trivial⟩

/-- The parentheses of a header leave no trace. -/
theorem parenthesized_succ :
    Meets (Parser.parenthesized (bound + 1)) tokens
      (Reads spelling (fun shape _ _ => isExpression shape = true) tokens) True
      (Short (bound + 1) tokens 1) := by
  rw [Parser.parenthesized]
  refine bind_expect ?_ fun _ => trivial
  rintro span rest rfl
  refine bind_call (walks.expression rest valid.tail) (.after (by decide)) ?_
  rintro inner rest ⟨used, rfl, -, sound, isValue, -⟩
  refine bind_expect ?_ fun _ => trivial
  rintro span' rest rfl
  exact .pure ⟨⟨.mark .lparen, span⟩ :: (used ++ [⟨.mark .rparen, span'⟩]), by simp, by simp, sound,
    isValue⟩

/-- An expression is optional where a mark may stand in its place. -/
theorem optional_succ (ending : Mark) :
    Meets (Parser.optional (bound + 1) ending) tokens (fun term rest =>
        ReadsAll spelling isExpression (fun _ _ => True) tokens term.toList rest) True
      (Short (bound + 1) tokens 13) := by
  rw [Parser.optional]
  refine bind_atMark ?_
  split
  · exact .pure ⟨[], rfl, by simp, trivial⟩
  · refine ((walks.expression tokens valid).mono (fun _ _ reads => reads) id
      (.down (by decide))).map ?_
    rintro term rest ⟨used, rfl, -, sound, isValue, -⟩
    exact ⟨used, rfl, by simpa using ⟨sound, isValue⟩, trivial⟩

/-- A declared variable may have an initial value. -/
theorem declarators_succ :
    Meets (Parser.declarators (bound + 1)) tokens
      (ReadsAll spelling isDeclarator (fun shapes _ => shapes ≠ []) tokens) True
      (Short (bound + 1) tokens 1) := by
  rw [Parser.declarators]
  refine bind_here fun start => bind_name ?_ fun _ => trivial
  rintro name span rest rfl
  have finishing {used rest' : List Token} {value : Option SourceTerm}
      (split : rest = used ++ rest')
      (inside : ∀ term ∈ value, term.shape.All (IsSound spelling) ∧
        isExpression term.shape = true) :
      Meets (do
        let first ← finish start (.declarator name value)
        if ← eat .comma then
          return first :: (← Parser.declarators bound)
        else
          return [first]) rest'
        (ReadsAll spelling isDeclarator (fun shapes _ => shapes ≠ [])
          (⟨.identifier name, span⟩ :: rest)) True
        (Short (bound + 1) (⟨.identifier name, span⟩ :: rest) 1) := by
    subst split
    refine bind_finish fun _ => ?_
    have sound :
        Term.All (IsSound spelling) (.node () (.declarator name (value.map Term.shape))) := by
      refine all_isSound ⟨valid.head, ?_⟩ id ?_
      · cases value with
        | none => rfl
        | some term => exact (inside term rfl).2
      · cases value with
        | none => simp
        | some term => simpa using (inside term rfl).1
    refine bind_eat ?_ fun _ => ?_
    · rintro span' rest rfl
      refine bind_call (walks.declarators rest valid.tail.right.tail) (.after (by decide)) ?_
      rintro others rest ⟨more, rfl, inside, -⟩
      refine .pure
        ⟨⟨.identifier name, span⟩ :: (used ++ ⟨.mark .comma, span'⟩ :: more), by simp, ?_, by simp⟩
      simpa using ⟨⟨sound, rfl⟩, inside⟩
    · exact .pure ⟨⟨.identifier name, span⟩ :: used, by simp, by simpa using ⟨sound, rfl⟩, by simp⟩
  refine bind_eat ?_ fun _ => ?_
  · rintro span' rest rfl
    refine bind_map ?_
    refine bind_call (walks.expression rest valid.tail.tail) (.after (by decide)) ?_
    rintro value rest ⟨used, rfl, -, sound, isValue, -⟩
    exact @finishing (⟨.mark .eq, span'⟩ :: used) _ (some value) rfl
      (by simpa using ⟨sound, isValue⟩)
  · exact @finishing [] _ none rfl (by simp)

/-- The header of a counted loop has three parts, each of which may be absent. -/
theorem forLoop_succ :
    Meets (Parser.forLoop (bound + 1)) tokens (Reads spelling IsStatementRead tokens) True
      (Short (bound + 1) tokens 1) := by
  rw [Parser.forLoop]
  refine bind_here fun start => bind_expectKeyword ?_ fun _ => trivial
  rintro span rest rfl
  refine bind_expect ?_ fun _ => trivial
  rintro span' rest rfl
  refine bind_here fun opening => bind_tokens ?_
  have finishing {used after : List Token} {declaration : Option SourceTerm}
      {initializers : List SourceTerm} (split : rest = used ++ after)
      (declares : ∀ term ∈ declaration, term.shape.All (IsSound spelling) ∧
        isDeclaration term.shape = true)
      (single : declaration.isSome → initializers = [])
      (inside : ∀ term ∈ initializers, term.shape.All (IsSound spelling) ∧
        isExpression term.shape = true)
      (quiet : declaration = none → ¬Ahead followsDeclared (Token.lexemes rest) ∧
        Echo (Token.lexemes used) (separated true (initializers.map Term.shape))) :
      Meets (do
        expect .semi
        let condition ← Parser.optional bound .semi
        expect .semi
        let incrementors ← if ← atMark .rparen then pure [] else Parser.expressions bound
        expect .rparen
        let body ← Parser.statement bound
        finish start (.forLoop declaration initializers condition incrementors (some body))) after
        (Reads spelling IsStatementRead
          (⟨.keyword .for, span⟩ :: ⟨.mark .lparen, span'⟩ :: rest)) True
        (Short (bound + 1) (⟨.keyword .for, span⟩ :: ⟨.mark .lparen, span'⟩ :: rest) 1) := by
    subst split
    refine bind_expect ?_ fun _ => trivial
    rintro first rest rfl
    have noDeclaration (absent : declaration = none) : ¬Ahead followsDeclared
        (separated true (initializers.map Term.shape) ++ [Lexeme.mark .semi]) := by
      obtain ⟨quiet, echo⟩ := quiet absent
      exact not_ahead (Token.lexemes rest) (echo.append (Echo.refl [.mark .semi]))
        (by simpa using quiet)
    have valid := valid.tail.tail.right.tail
    refine bind_call (walks.optional .semi rest valid) (.after (by decide)) ?_
    rintro condition rest ⟨middle, rfl, isCondition, -⟩
    refine bind_expect ?_ fun _ => trivial
    rintro second rest rfl
    have valid := valid.right.tail
    have body {steps rest : List Token} {incrementors : List SourceTerm}
        (areSteps : ∀ term ∈ incrementors, term.shape.All (IsSound spelling) ∧
          isExpression term.shape = true)
        (valid : Token.Valid spelling rest) :
        Meets (do
          expect .rparen
          let body ← Parser.statement bound
          finish start (.forLoop declaration initializers condition incrementors (some body))) rest
          (Reads spelling IsStatementRead (⟨.keyword .for, span⟩ :: ⟨.mark .lparen, span'⟩ ::
            (used ++ ⟨.mark .semi, first⟩ :: (middle ++ ⟨.mark .semi, second⟩ :: (steps ++ rest)))))
          True
          (Short (bound + 1) (⟨.keyword .for, span⟩ :: ⟨.mark .lparen, span'⟩ ::
            (used ++ ⟨.mark .semi, first⟩ :: (middle ++ ⟨.mark .semi, second⟩ :: (steps ++ rest))))
            1) := by
      refine bind_expect ?_ fun _ => trivial
      rintro third rest rfl
      refine bind_call (walks.statement rest valid.tail) (.after (by decide)) ?_
      rintro body rest ⟨more, rfl, -, sound, statement, closed, -⟩
      refine .finish fun _ => ⟨⟨.keyword .for, span⟩ :: ⟨.mark .lparen, span'⟩ ::
        (used ++ ⟨.mark .semi, first⟩ :: (middle ++ ⟨.mark .semi, second⟩ ::
          (steps ++ ⟨.mark .rparen, third⟩ :: more))), by simp, by simp, ?_, ?_⟩
      · exact sound_forLoop declares single inside noDeclaration (by simpa using isCondition)
          areSteps ⟨sound, statement⟩
      · rw [Term.shape_node]
        exact isStatementRead rfl (by simp) (by simpa [endsOpenIf] using closed)
    refine bind_atMark ?_
    split
    · exact @body [] _ _ (by simp) valid
    · refine bind_call (walks.expressions rest valid) (.after (by decide)) ?_
      rintro incrementors rest ⟨steps, rfl, areSteps, -⟩
      exact body areSteps valid.right
  split
  · refine bind_call ((meets_types bound).1 rest valid.tail.tail) (.after (by decide)) ?_
    rintro type rest ⟨used, rfl, -, soundType, isType⟩
    refine bind_call (walks.declarators rest valid.tail.tail.right) (.after (by decide)) ?_
    rintro declarators rest ⟨more, rfl, inside, nonempty⟩
    refine bind_finish fun _ => bind_pure ?_
    refine @finishing (used ++ more) _ _ _ (by simp) ?_ (by simp) (by simp) (by simp)
    rintro _ ⟨⟩
    rw [Term.shape_node]
    exact ⟨sound_localDecl soundType isType inside (by simpa using nonempty), rfl⟩
  · rename_i noDeclaration
    rw [Token.atLocalDecl_iff] at noDeclaration
    refine bind_atMark ?_
    split
    · refine bind_pure ?_
      exact @finishing [] _ _ _ rfl (by simp) (by simp) (by simp) fun _ =>
        ⟨noDeclaration, Echo.refl _⟩
    · refine bind_call (walks.expressions rest valid.tail.tail) (.after (by decide)) ?_
      rintro initializers rest ⟨used, rfl, inside, -, echo⟩
      refine bind_pure ?_
      exact finishing rfl (by simp) (by simp) inside fun _ => ⟨noDeclaration, echo⟩

/-- Statements start with their keyword, a brace, a declaration or an expression. -/
theorem statement_succ :
    Meets (Parser.statement (bound + 1)) tokens (Reads spelling IsStatementRead tokens) True
      (Short (bound + 1) tokens 13) := by
  rw [Parser.statement]
  refine bind_here fun start => bind_lexeme ?_
  split
  · refine (walks.block tokens valid).mono ?_ id (.down (by decide))
    rintro ⟨note, form⟩ rest ⟨used, split, positive, sound, isBlock⟩
    refine ⟨used, split, positive, sound, ?_⟩
    cases form with
    | block statements => exact isStatementRead rfl (by simp) (by simp [endsOpenIf])
    | _ => cases isBlock
  · rename_i next
    obtain ⟨span, rest, rfl⟩ := exists_of_first (by simp) next
    refine bind_advance (by simp) ?_
    refine bind_call (walks.parenthesized rest valid.tail) (.after (by decide)) ?_
    rintro condition rest ⟨used, rfl, positive, soundCondition, isCondition⟩
    refine bind_call (walks.statement rest valid.tail.right) (.after (by decide)) ?_
    rintro thenBranch rest ⟨more, rfl, -, soundThen, isThen, noElse, -⟩
    refine bind_eatElse ?_ fun other => ?_
    · rintro span' rest rfl
      have closed : endsOpenIf thenBranch.shape = false :=
        Bool.eq_false_iff.2 fun isOpen => noElse isOpen rfl
      refine bind_map ?_
      refine bind_call (walks.statement rest valid.tail.right.right.tail) (.after (by decide)) ?_
      rintro elseBranch rest ⟨further, rfl, -, soundElse, isElse, noElse', -⟩
      refine .finish fun _ => ⟨⟨.keyword .if, span⟩ :: (used ++ (more ++ ⟨.keyword .else, span'⟩ ::
        further)), by simp, by simp, ?_, ?_⟩
      · rw [Term.shape_node]
        refine all_isSound ⟨isCondition, isThen, isElse, fun _ => ?_⟩ id ?_
        · simpa using closed
        · simp [soundCondition, soundThen, soundElse]
      · rw [Term.shape_node]
        exact isStatementRead rfl (by simp) (by simpa [endsOpenIf] using noElse')
    · refine bind_pure (.finish fun _ => ⟨⟨.keyword .if, span⟩ :: (used ++ more), by simp,
        by simp, ?_, ?_⟩)
      · rw [Term.shape_node]
        exact all_isSound ⟨isCondition, isThen, rfl, by simp⟩ id
          (by simp [soundCondition, soundThen])
      · rw [Term.shape_node]
        exact isStatementRead rfl (by simp) fun _ => other
  · rename_i next
    obtain ⟨span, rest, rfl⟩ := exists_of_first (by simp) next
    refine bind_advance (by simp) ?_
    refine bind_call (walks.parenthesized rest valid.tail) (.after (by decide)) ?_
    rintro condition rest ⟨used, rfl, positive, soundCondition, isCondition⟩
    refine bind_call (walks.statement rest valid.tail.right) (.after (by decide)) ?_
    rintro body rest ⟨more, rfl, -, soundBody, isBody, noElse, -⟩
    refine .finish fun _ => ⟨⟨.keyword .while, span⟩ :: (used ++ more), by simp, by simp, ?_, ?_⟩
    · rw [Term.shape_node]
      exact all_isSound ⟨isCondition, isBody⟩ id (by simp [soundCondition, soundBody])
    · rw [Term.shape_node]
      exact isStatementRead rfl (by simp) (by simpa [endsOpenIf] using noElse)
  · exact (walks.forLoop tokens valid).mono (fun _ _ reads => reads) id (.down (by decide))
  · rename_i next
    obtain ⟨span, rest, rfl⟩ := exists_of_first (by simp) next
    refine bind_advance (by simp) (bind_expect ?_ fun _ => trivial)
    rintro span' rest rfl
    refine bind_call ((meets_types bound).1 rest valid.tail.tail) (.after (by decide)) ?_
    rintro type rest ⟨used, rfl, -, soundType, isType⟩
    refine bind_name ?_ fun _ => trivial
    rintro name span₁ rest rfl
    refine bind_expectKeyword ?_ fun _ => trivial
    rintro span₂ rest rfl
    have isName := valid.tail.tail.right.head
    have valid := valid.tail.tail.right.tail.tail
    refine bind_call (walks.expression rest valid) (.after (by decide)) ?_
    rintro collection rest ⟨middle, rfl, -, soundCollection, isCollection, -⟩
    refine bind_expect ?_ fun _ => trivial
    rintro span₃ rest rfl
    refine bind_call (walks.statement rest valid.right.tail) (.after (by decide)) ?_
    rintro body rest ⟨more, rfl, -, soundBody, isBody, noElse, -⟩
    refine .finish fun _ => ⟨⟨.keyword .forEach, span⟩ :: ⟨.mark .lparen, span'⟩ ::
      (used ++ ⟨.identifier name, span₁⟩ :: ⟨.keyword .in, span₂⟩ ::
        (middle ++ ⟨.mark .rparen, span₃⟩ :: more)), by simp, by simp, ?_, ?_⟩
    · rw [Term.shape_node]
      exact all_isSound ⟨isType, isName, isCollection, isBody⟩ id
        (by simp [soundType, soundCollection, soundBody])
    · rw [Term.shape_node]
      exact isStatementRead rfl (by simp) (by simpa [endsOpenIf] using noElse)
  · rename_i next
    obtain ⟨span, rest, rfl⟩ := exists_of_first (by simp) next
    refine bind_advance (by simp) ?_
    refine bind_call (walks.optional .semi rest valid.tail) (.after (by decide)) ?_
    rintro value rest ⟨used, rfl, inside, -⟩
    refine bind_expect ?_ fun _ => trivial
    rintro span' rest rfl
    refine .finish fun _ => ⟨⟨.keyword .return, span⟩ :: (used ++ [⟨.mark .semi, span'⟩]), by simp,
      by simp, ?_, ?_⟩
    · simp only [Term.shape_node, Term.mapForm, Term.mapSome_unit]
      refine all_isSound (all_map_shape fun term member => (inside term (by simp_all)).2) id ?_
      simpa using fun term member => (inside term (by simp_all)).1
    · rw [Term.shape_node]
      exact isStatementRead rfl (by simp) (by simp [endsOpenIf])
  · refine bind_tokens ?_
    split
    · refine bind_call ((meets_types bound).1 tokens valid) (.down (by decide)) ?_
      rintro type rest ⟨used, rfl, positive, soundType, isType⟩
      have fewer : Fewer rest (used ++ rest) := .of_used positive
      refine bind_call (walks.declarators rest valid.right) (.after (by decide)) ?_
      rintro declarators rest ⟨more, rfl, inside, nonempty⟩
      refine bind_expect ?_ fun _ => trivial
      rintro span rest rfl
      refine .finish fun _ => ⟨used ++
        (more ++ [⟨.mark .semi, span⟩]), by simp, List.length_pos_of_ne_nil (by simp), ?_, ?_⟩
      · rw [Term.shape_node]
        exact sound_localDecl soundType isType inside (by simpa using nonempty)
      · rw [Term.shape_node]
        exact isStatementRead rfl (by simp) (by simp [endsOpenIf])
    · rename_i noDeclaration
      rw [Token.atLocalDecl_iff] at noDeclaration
      refine bind_call (walks.expression tokens valid) (.down (by decide)) ?_
      rintro expression rest ⟨used, rfl, positive, sound, isValue, echo, -⟩
      refine bind_expect ?_ fun _ => trivial
      rintro span rest rfl
      have written := echo.append (Echo.refl [.mark .semi])
      refine .finish fun _ => ⟨used ++ [⟨.mark .semi, span⟩], by simp, by simp, ?_, rfl, ?_, ?_⟩
      · rw [Term.shape_node]
        refine all_isSound isValue ?_ (by simpa using sound)
        exact not_ahead (Token.lexemes rest) written (by simpa using noDeclaration)
      · simp [endsOpenIf]
      · rintro note inside same
        simp only [Term.shape_node, Term.mapForm, Term.mapSome_unit, Option.map_some,
          Term.node.injEq, Kind.exprStmt.injEq] at same
        rw [← same.2]
        simpa [one] using written

end Walks

/-- Every function of the grammar reads sound shapes, and none runs out of a bound that is large
enough. -/
theorem walks (bound : Nat) : Walks spelling bound := by
  induction bound with
  | zero => exact .zero
  | succ bound ih =>
    exact {
      expression := fun _ => ih.expression_succ
      assignment := fun _ => ih.assignment_succ
      lambda := fun _ => ih.lambda_succ
      coalesce := fun _ => ih.coalesce_succ
      binary := fun _ _ low high valid => ih.binary_succ valid low high
      binaryRest := fun _ _ _ _ _ low high valid => ih.binaryRest_succ valid low high
      unary := fun _ => ih.unary_succ
      postfixRest := fun _ _ _ _ valid => ih.postfixRest_succ valid
      arguments := fun _ => ih.arguments_succ
      expressions := fun _ => ih.expressions_succ
      primary := fun _ => ih.primary_succ
      block := fun _ => ih.block_succ
      statements := fun _ => ih.statements_succ
      statement := fun _ => ih.statement_succ
      parenthesized := fun _ => ih.parenthesized_succ
      optional := fun ending _ valid => ih.optional_succ valid ending
      declarators := fun _ => ih.declarators_succ
      forLoop := fun _ => ih.forLoop_succ }

/-- Reading a method. -/
theorem meets_method (bound : Nat) (tokens : List Token) (valid : Token.Valid spelling tokens) :
    Meets (method bound) tokens
      (Reads spelling (fun shape _ _ => shape.kind.isMethod = true) tokens) True
        (Short bound tokens 2) := by
  refine bind_here fun start => ?_
  refine bind_call ((meets_types bound).1 tokens valid) (.widen (by decide)) ?_
  rintro result rest ⟨used, rfl, -, soundResult, isResult⟩
  refine bind_name ?_ fun _ => trivial
  rintro name span₁ rest rfl
  refine bind_expect ?_ fun _ => trivial
  rintro span₂ rest rfl
  have isName := valid.right.head
  have finishing {header after : List Token} {params : List SourceTerm}
      (split : rest = header ++ after)
      (inside : ∀ term ∈ params, term.shape.All (IsSound spelling) ∧
        isTypedParam term.shape = true) :
      Meets (do
        expect .rparen
        let body ← block bound
        finish start (.method (some result) name params (some body))) after
        (Reads spelling (fun shape _ _ => shape.kind.isMethod = true)
          (used ++ ⟨.identifier name, span₁⟩ :: ⟨.mark .lparen, span₂⟩ :: rest)) True
        (Short bound (used ++ ⟨.identifier name, span₁⟩ :: ⟨.mark .lparen, span₂⟩ :: rest) 2) := by
    subst split
    refine bind_expect ?_ fun _ => trivial
    rintro span₃ rest rfl
    refine bind_call ((walks bound).block rest valid.right.tail.tail.right.tail)
      (.later (by decide)) ?_
    rintro body rest ⟨more, rfl, -, soundBody, isBody⟩
    refine .finish fun _ => ⟨used ++ ⟨.identifier name, span₁⟩ :: ⟨.mark .lparen, span₂⟩ ::
      (header ++ ⟨.mark .rparen, span₃⟩ ::
      more), by simp, List.length_pos_of_ne_nil (by simp), ?_, by rw [Term.shape_node]; rfl⟩
    rw [Term.shape_node]
    refine all_isSound ⟨isResult, isName, ?_, isBody⟩ id ?_
    · simpa using fun term member => (inside term member).2
    · simp only [Term.mapForm, Term.mapSome_unit, Term.mapAll_unit, Option.map_some, Term.mem_parts,
        Kind.slots, List.mem_cons, List.not_mem_nil, or_false, exists_eq_or_imp, exists_eq_left,
        Slot.terms, Option.mem_toList, Option.some.injEq, List.mem_map]
      rintro child (rfl | ⟨term, member, rfl⟩ | rfl)
      · exact soundResult
      · exact (inside term member).1
      · exact soundBody
  refine bind_atMark ?_
  split
  · exact @finishing [] _ _ rfl (by simp)
  · refine bind_call (meets_methodParams bound rest valid.right.tail.tail) (.later (by decide)) ?_
    rintro params rest ⟨header, rfl, inside, -⟩
    exact finishing rfl inside

/-- None of the expression statements is taken for a method. -/
def AreQuiet (shapes : List Shape) : Prop :=
  ∀ note expression, .node note (.exprStmt expression) ∈ shapes →
    ¬Ahead followsMethod (one expression ++ [Lexeme.mark .semi])

/-- What reading the members of a unit comes to. -/
theorem meets_members (bound : Nat) (tokens : List Token) (valid : Token.Valid spelling tokens) :
    Meets (members bound) tokens
      (ReadsAll spelling isMember (fun shapes _ => AreQuiet shapes) tokens) True
        (Short bound tokens 14) := by
  induction bound generalizing tokens with
  | zero => exact .exhausted (.zero (by decide))
  | succ bound ih =>
    have finishing {used rest : List Token} {first : SourceTerm} (split : tokens = used ++ rest)
        (positive : 0 < used.length) (sound : first.shape.All (IsSound spelling))
        (member : isMember first.shape = true) (quietFirst : AreQuiet [first.shape]) :
        Meets (do return first :: (← members bound)) rest
          (ReadsAll spelling isMember (fun shapes _ => AreQuiet shapes) tokens) True
          (Short (bound + 1) tokens 14) := by
      subst split
      have fewer : Fewer rest (used ++ rest) := .of_used positive
      refine bind_call (ih rest valid.right) (.after (by decide)) ?_
      rintro others rest ⟨more, rfl, inside, quiet⟩
      refine .pure ⟨used ++ more, by simp, by simpa using ⟨⟨sound, member⟩, inside⟩, ?_⟩
      rintro note expression within
      rcases List.mem_cons.1 within with same | within
      · exact quietFirst note expression (List.mem_singleton.2 same)
      · exact quiet note expression within
    rw [members]
    refine bind_lexeme ?_
    split
    · exact .pure ⟨[], rfl, by simp, by simp [AreQuiet]⟩
    · refine bind_tokens ?_
      split
      · refine bind_call (meets_method bound tokens valid) (.down (by decide)) ?_
        rintro first rest ⟨used, rfl, positive, sound, isMethod⟩
        refine finishing rfl positive sound (by simp [isMember, isMethod]) ?_
        rintro note expression within
        rw [← List.mem_singleton.1 within] at isMethod
        cases isMethod
      · rename_i noMethod
        rw [Token.atMethod_iff] at noMethod
        refine bind_call ((walks bound).statement tokens valid) (.down (by decide)) ?_
        rintro first rest ⟨used, rfl, positive, sound, isStatement, -, echo⟩
        rw [Token.lexemes_append] at noMethod
        refine finishing rfl positive sound ?_ ?_
        · rw [isMember, Bool.or_eq_true]
          exact .inl isStatement
        · rintro note expression within
          have written := echo note expression (List.mem_singleton.1 within).symm
          exact not_ahead _ written noMethod

/-- What is read as a unit is readable, and the bound of a unit suffices to read it. -/
theorem meets_unit (tokens : List Token) (valid : Token.Valid spelling tokens) :
    Meets (unit (unitBound tokens)) tokens
      (fun term _ => Readable spelling term.shape) True False := by
  refine bind_call (meets_members _ tokens valid) ?_ ?_
  · intro short
    simp only [Short, unitBound, stepsPerToken] at short
    omega
  · rintro members rest ⟨used, rfl, inside, quiet⟩
    refine bind_here fun span => .pure ?_
    rw [Term.shape_node]
    refine ⟨rfl, all_isSound ?_ id ?_, ?_⟩
    · simpa [IsFormed] using fun term member => (inside term member).2
    · simpa using fun term member => (inside term member).1
    · simp only [Term.mapForm, Term.mapAll_unit]
      rintro ⟨expression, note, within, ahead⟩
      exact quiet note expression within ahead

end Parser

end Refactory
