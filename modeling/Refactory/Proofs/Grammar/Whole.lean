import Refactory.Proofs.Grammar.Complete

/-!
# Whole units are read

Statements, methods and units are read as expressions are: by what the functions of the grammar make
of sound shapes. The first lexeme of a statement tells its kind, except that the lookahead tells
declarations from expressions. So every readable shape is what reading its lexemes gives
(`Parser.gives_unit`).
-/
namespace Refactory

variable {shape : Shape} {used rest : List Token} {shapes : List Shape} {span : Span}

namespace Parser

open Shape Lexeme Meets
open Token (endsType eq_nil_of_lexemes exists_of_lexemes_eq_append exists_of_lexemes_eq_cons first
  lexemes_append)

variable {spelling : Spelling}

/-- The lexemes of a type are passed as a type. -/
theorem isType_lexemes (formed : shape.All (IsFormed spelling))
    (type : isType shape = true) : IsType (lexemes shape) := by
  induction shape using Term.induction with
  | step note form ih =>
    obtain ⟨here, below⟩ := Term.All.node_iff.1 formed
    cases form with
    | typeRef name arguments rank =>
      obtain ⟨-, types, -⟩ := here
      have areTypes : ∀ argument ∈ arguments, IsType (lexemes argument) := fun argument member =>
        ih argument (by simpa using member) (below argument (by simpa using member))
          (List.all_eq_true.1 types argument member)
      have listed {shapes : List Shape} (nonempty : shapes ≠ [])
          (each : ∀ shape ∈ shapes, IsType (lexemes shape)) :
          IsTypeArguments (separated true shapes) := by
        induction shapes with
        | nil => exact absurd rfl nonempty
        | cons shape shapes others =>
          rw [separated_true]
          have first := each shape (.head _)
          by_cases last : shapes = []
          · subst last
            simpa [separated] using IsTypeArguments.last first
          · rw [← separated_false last]
            exact .more first (others last fun other member => each other (.tail _ member))
      cases arguments with
      | nil => exact .named name rank
      | cons argument arguments =>
        have inside := listed (by simp) areTypes
        rw [separated_true] at inside
        simpa [lexemes, bracketed] using IsType.generic name inside rank
    | _ => cases type

/-- A lexeme that a statement may start with: it ends no block and goes on with no other
statement. -/
def startsStatement : Lexeme → Bool
  | .mark .rbrace | .endOfInput | .keyword .else => false
  | _ => true

/-- A primary may start a statement. -/
theorem startsStatement_of_startsPrimary {lexeme : Lexeme} (starts : lexeme.startsPrimary = true) :
    startsStatement lexeme = true := by
  unfold startsStatement
  split <;> first | rfl | cases starts

/-- A type starts with a name. -/
theorem exists_name_of_isType (type : isType shape = true) :
    ∃ name more, lexemes shape = .identifier name :: more := by
  rcases shape with ⟨note, form⟩
  cases form with
  | typeRef name arguments rank => exact ⟨name, _, rfl⟩
  | _ => cases type

/-- A parameter of a method has a type. -/
theorem exists_type_of_isTypedParam (typed : isTypedParam shape = true) :
    ∃ note type name, shape = .node note (.param (some type) name) := by
  rcases shape with ⟨note, form⟩
  cases form with
  | param type name =>
    cases type with
    | none => cases typed
    | some type => exact ⟨note, type, name, rfl⟩
  | _ => cases typed

/-- A statement or a method starts with a lexeme that ends no block and goes on with no other
statement. -/
theorem exists_first_of_member (formed : shape.All (IsFormed spelling))
    (member : isMember shape = true) :
    ∃ first more, lexemes shape = first :: more ∧ startsStatement first = true := by
  rcases shape with ⟨note, form⟩
  obtain ⟨here, below⟩ := Term.All.node_iff.1 formed
  -- Where a type is in front, its name is.
  have typed {type : Option Shape} (isType : type.any isType = true) (after : List Lexeme) :
      ∃ first more, one type ++ after = first :: more ∧ startsStatement first = true := by
    obtain ⟨type, rfl, isType⟩ := (Option.any_eq_true _ _).1 isType
    obtain ⟨name, more, same⟩ := exists_name_of_isType isType
    exact ⟨.identifier name, more ++ after, by simp [one, same], rfl⟩
  cases form with
  | method result name params body => exact typed here.1 _
  | localDecl type declarators => exact typed here.1 _
  | exprStmt expression =>
    obtain ⟨inner, rfl, expression⟩ := (Option.any_eq_true _ _).1 here
    obtain ⟨first, more, same, starts⟩ := (front (below inner (by simp)) expression).exists_first
    refine ⟨first, more ++ [Lexeme.mark .semi], by simp [lexemes, one, same], ?_⟩
    rcases starts with starts | ⟨-, op, -, rfl⟩
    · exact startsStatement_of_startsPrimary starts
    · cases op <;> rfl
  | block statements => exact ⟨_, _, rfl, rfl⟩
  | returnStmt value => exact ⟨_, _, rfl, rfl⟩
  | ifStmt condition thenBranch elseBranch => exact ⟨_, _, rfl, rfl⟩
  | whileLoop condition body => exact ⟨_, _, rfl, rfl⟩
  | forLoop declaration initializers condition incrementors body => exact ⟨_, _, rfl, rfl⟩
  | forEach type name collection body => exact ⟨_, _, rfl, rfl⟩
  | _ => cases member

/-- Tokens of a statement or a method start with a token that may start one. -/
theorem exists_token_of_member (formed : shape.All (IsFormed spelling))
    (member : isMember shape = true) {after : List Lexeme}
    (spelled : Token.lexemes used = lexemes shape ++ after) :
    ∃ token more, used = token :: more ∧ startsStatement token.lexeme = true := by
  obtain ⟨first, more, same, starts⟩ := exists_first_of_member formed member
  rw [same] at spelled
  obtain ⟨span, rest, rfl, -⟩ := exists_of_lexemes_eq_cons spelled
  exact ⟨_, rest, rfl, starts⟩

/-- Statements are members. -/
theorem isMember_of_isStatement (statement : isStatement shape = true) :
    isMember shape = true := by
  rw [isMember, show shape.kind.isStatement = true from statement, Bool.true_or]

/-- No else comes after a statement if none comes after all of them. -/
theorem first_lines_ne_else (formed : ∀ shape ∈ shapes, shape.All (IsFormed spelling))
    (members : shapes.all isMember = true)
    (spelled : Token.lexemes used = lines shapes) (other : first rest ≠ .keyword .else) :
    first (used ++ rest) ≠ .keyword .else := by
  cases shapes with
  | nil =>
    obtain rfl := eq_nil_of_lexemes spelled
    exact other
  | cons shape shapes =>
    rw [List.all_cons, Bool.and_eq_true] at members
    obtain ⟨token, more, rfl, starts⟩ :=
      exists_token_of_member (formed shape (.head _)) members.1 spelled
    intro same
    rw [show token.lexeme = .keyword .else from same] at starts
    cases starts

/-- A lexeme of no statement that starts with a keyword or a brace. -/
def startsPlainly : Lexeme → Bool
  | .mark .lbrace | .keyword .if | .keyword .while | .keyword .for | .keyword .forEach
  | .keyword .return => false
  | _ => true

/-- A primary starts with no keyword of a statement and with no brace. -/
theorem startsPlainly_of_startsPrimary {lexeme : Lexeme} (starts : lexeme.startsPrimary = true) :
    startsPlainly lexeme = true := by
  unfold startsPlainly
  split <;> first | rfl | cases starts

/-- A statement that starts with no keyword and no brace is a declaration or an expression. -/
theorem meets_plain {bound : Nat} {tokens : List Token} {result : SourceTerm → List Token → Prop}
    (plain : startsPlainly (first tokens) = true)
    (declares : Token.atLocalDecl tokens = true → ∀ start, Meets (do
      let type ← typeRef bound
      let declarators ← declarators bound
      expect .semi
      finish start (.localDecl type declarators)) tokens result False True)
    (evaluates : Token.atLocalDecl tokens = false → ∀ start, Meets (do
      let expression ← expression bound
      expect .semi
      finish start (.exprStmt expression)) tokens result False True) :
    Meets (statement (bound + 1)) tokens result False True := by
  rw [statement]
  refine bind_here fun start => bind_lexeme ?_
  split
  case h_7 =>
    refine bind_tokens ?_
    cases ahead : Token.atLocalDecl tokens with
    | true => exact declares ahead start
    | false => exact evaluates ahead start
  all_goals
    rename_i next
    rw [next] at plain
    cases plain

/-- Declared variables are read up to what is no comma. -/
theorem gives_declarators (complete : ∀ shape ∈ shapes, shape.All Complete)
    (sound : ∀ shape ∈ shapes, shape.All (IsSound spelling))
    (declarators : shapes.all isDeclarator = true)
    (nonempty : shapes ≠ []) (bound : Nat)
    (spelled : Token.lexemes used = separated true shapes) :
    GivesAll (Parser.declarators bound) (used ++ ⟨.mark .semi, span⟩ :: rest) shapes
      (⟨.mark .semi, span⟩ :: rest) := by
  induction shapes generalizing bound used with
  | nil => exact absurd rfl nonempty
  | cons shape shapes ih =>
    refine .bounded (by rfl) (fun bound => ?_) bound
    rw [List.all_cons, Bool.and_eq_true] at declarators
    rw [separated_true] at spelled
    obtain ⟨first, more, rfl, written, tail⟩ := exists_of_lexemes_eq_append spelled
    rcases shape with ⟨note, form⟩
    cases form with
    | declarator name value =>
      obtain ⟨-, expression⟩ := (sound _ (.head _)).here.formed
      obtain ⟨span', inside, rfl, initialized⟩ := exists_of_lexemes_eq_cons written
      have finishing {start : Span} {term : Option SourceTerm}
          (same : term.map Term.shape = value) :
          GivesAll (do
            let first ← finish start (.declarator name term)
            if ← eat .comma then
              return first :: (← Parser.declarators bound)
            else
              return [first]) (more ++ ⟨.mark .semi, span⟩ :: rest)
            (.node note (.declarator name value) :: shapes) (⟨.mark .semi, span⟩ :: rest) := by
        refine bind_finish fun _ => ?_
        rcases rest_of_items tail with ⟨rfl, rfl⟩ | ⟨others, span'', more, rfl, items⟩
        · exact bind_eat_other (by simp [Token.first]) (.pure (by simp [same]))
        · refine bind_eat_mark ?_
          refine Meets.bind (ih (fun other member => complete other (.tail _ member))
            (fun other member => sound other (.tail _ member)) declarators.2 others bound items) ?_
          rintro terms after ⟨rfl, rfl⟩
          exact .pure (by simp [same])
      have ended : ends (Token.first (more ++ ⟨.mark .semi, span⟩ :: rest)) = true := by
        rcases rest_of_items tail with ⟨-, rfl⟩ | ⟨-, _, _, rfl, -⟩ <;> rfl
      rw [Parser.declarators, List.cons_append, List.cons_append]
      refine bind_here fun start => bind_name_identifier ?_
      rw [List.append_assoc]
      cases value with
      | none =>
        obtain rfl := eq_nil_of_lexemes initialized
        refine bind_eat_other ?_ (finishing rfl)
        intro next
        rw [List.nil_append] at next
        rw [next] at ended
        cases ended
      | some value =>
        obtain ⟨span'', inside, rfl, valued⟩ := exists_of_lexemes_eq_cons initialized
        have completeValue := ((Term.All.node_iff.1 (complete _ (.head _))).2 value (by simp)).here
        refine bind_eat_mark (bind_map ?_)
        refine Meets.bind (completeValue.ended expression bound valued ended) ?_
        rintro term after ⟨rfl, rfl⟩
        exact finishing rfl
    | _ => cases declarators.1

/-- The lookahead sees a declaration where one is. -/
theorem ahead_declaration {type : Shape} {declarators : List Shape} (isType : IsType (lexemes type))
    (declares : declarators.all isDeclarator = true) (nonempty : declarators ≠ [])
    (after : List Lexeme) :
    Ahead followsDeclared
    (lexemes type ++ (separated true declarators ++ .mark .semi :: after)) := by
  cases declarators with
  | nil => exact absurd rfl nonempty
  | cons declarator declarators =>
    rw [List.all_cons, Bool.and_eq_true] at declares
    rcases declarator with ⟨note, form⟩
    cases form with
    | declarator name value =>
      rw [separated_true]
      cases value with
      | some value =>
        exact ⟨lexemes type, name, .mark .eq,
          lexemes value ++ (separated false declarators ++ .mark .semi :: after), isType, rfl,
          by simp [lexemes, initial]⟩
      | none =>
        by_cases last : declarators = []
        · subst last
          exact ⟨lexemes type, name, .mark .semi, after, isType, rfl,
            by simp [lexemes, initial, separated]⟩
        · rw [← separated_false last]
          exact ⟨lexemes type, name, .mark .comma,
            separated true declarators ++ .mark .semi :: after, isType, rfl,
            by simp [lexemes, initial]⟩
    | _ => cases declares.1

/-- No declared name goes on with the type before it. -/
theorem endsType_of_declarators {declarators : List Shape}
    (declares : declarators.all isDeclarator = true) (nonempty : declarators ≠ [])
    {used : List Token} (rest : List Token)
    (spelled : Token.lexemes used = separated true declarators) :
    endsType (first (used ++ rest)) = true := by
  cases declarators with
  | nil => exact absurd rfl nonempty
  | cons declarator declarators =>
    rw [List.all_cons, Bool.and_eq_true] at declares
    rcases declarator with ⟨note, form⟩
    cases form with
    | declarator name value =>
      rw [separated_true] at spelled
      obtain ⟨span, more, rfl, -⟩ := exists_of_lexemes_eq_cons spelled
      rfl
    | _ => cases declares.1

/-- A type and the variables declared of it are read up to the semicolon after them. -/
theorem meets_declaration {α : Type} {type : Shape} {declarators : List Shape}
    (completeType : Complete type) (complete : ∀ shape ∈ declarators, shape.All Complete)
    (sound : ∀ shape ∈ declarators, shape.All (IsSound spelling)) (typed : isType type = true)
    (declares : declarators.all isDeclarator = true) (nonempty : declarators ≠ []) (bound : Nat)
    {first second rest : List Token} {span : Span}
    (spelledType : Token.lexemes first = lexemes type)
    (written : Token.lexemes second = separated true declarators)
    {next : SourceTerm → List SourceTerm → Parser α} {result : α → List Token → Prop}
    (known : ∀ term terms, term.shape = type → terms.map Term.shape = declarators →
      Meets (next term terms) (⟨.mark .semi, span⟩ :: rest) result False True) :
    Meets (do
      let type ← typeRef bound
      let declarators ← Parser.declarators bound
      next type declarators) (first ++ (second ++ ⟨.mark .semi, span⟩ :: rest)) result False
      True := by
  refine Meets.bind (completeType.type typed bound _ _ spelledType
    (endsType_of_declarators declares nonempty _ written)) ?_
  rintro term after ⟨sameType, rfl⟩
  refine Meets.bind (gives_declarators complete sound declares nonempty bound written) ?_
  rintro terms after ⟨same, rfl⟩
  exact known term terms sameType same

/-- No list of expressions starts with a lexeme of another sort. -/
theorem first_separated_ne (formed : ∀ shape ∈ shapes, shape.All (IsFormed spelling))
    (expressions : shapes.all isExpression = true) (nonempty : shapes ≠ [])
    (rest : List Token) (spelled : Token.lexemes used = separated true shapes) {lexeme : Lexeme}
    (noPrimary : lexeme.startsPrimary = false)
    (noOperator : UnaryOp.ofLeadingLexeme? lexeme = none) :
    Token.first (used ++ rest) ≠ lexeme := by
  cases shapes with
  | nil => exact absurd rfl nonempty
  | cons shape shapes =>
    rw [List.all_cons, Bool.and_eq_true] at expressions
    rw [separated_true] at spelled
    obtain ⟨first, more, rfl, written, -⟩ := exists_of_lexemes_eq_append spelled
    rw [List.append_assoc]
    exact first_ne (formed shape (.head _)) expressions.1 _ written noPrimary noOperator

/-- An expression in parentheses is read without its node. -/
theorem gives_parenthesized (complete : Complete shape)
    (expression : isExpression shape = true) (bound : Nat) {span' : Span}
    (spelled : Token.lexemes used = lexemes shape) :
    Gives (Parser.parenthesized bound)
    (⟨.mark .lparen, span⟩ :: (used ++ ⟨.mark .rparen, span'⟩ :: rest)) shape rest := by
  refine .bounded (by rfl) (fun bound => ?_) bound
  rw [Parser.parenthesized]
  refine bind_expect_mark ?_
  refine Meets.bind (complete.ended expression bound spelled rfl) ?_
  rintro term after ⟨rfl, rfl⟩
  exact bind_expect_mark (.pure ⟨rfl, rfl⟩)

/-- An expression that may be absent is read up to the semicolon after it. -/
theorem meets_optional {value : Option Shape} (complete : ∀ shape ∈ value, Complete shape)
    (formed : ∀ shape ∈ value, shape.All (IsFormed spelling))
    (expression : value.all isExpression = true) (bound : Nat)
    (spelled : Token.lexemes used = Shape.optional value) :
    Meets (Parser.optional bound .semi) (used ++ ⟨.mark .semi, span⟩ :: rest)
      (fun term after => term.map Term.shape = value ∧ after = ⟨.mark .semi, span⟩ :: rest)
      False True := by
  cases bound with
  | zero => exact .exhausted trivial
  | succ bound =>
    rw [Parser.optional]
    refine bind_atMark ?_
    cases value with
    | none =>
      obtain rfl := eq_nil_of_lexemes spelled
      exact .pure ⟨rfl, rfl⟩
    | some shape =>
      have noSemi : first (used ++ ⟨.mark .semi, span⟩ :: rest) ≠ .mark .semi :=
        first_ne (formed shape rfl) expression _ spelled rfl rfl
      rw [if_neg (by simpa using noSemi)]
      refine Meets.map ((complete shape rfl).ended expression bound spelled rfl) ?_
      rintro term after ⟨rfl, rfl⟩
      exact ⟨rfl, rfl⟩

/-- Statements are read up to what ends them. -/
theorem gives_statements (complete : ∀ shape ∈ shapes, Complete shape)
    (formed : ∀ shape ∈ shapes, shape.All (IsFormed spelling))
    (statements : shapes.all isStatement = true)
    (bound : Nat)
    (spelled : Token.lexemes used = lines shapes) :
    GivesAll (Parser.statements bound) (used ++ ⟨.mark .rbrace, span⟩ :: rest) shapes
      (⟨.mark .rbrace, span⟩ :: rest) := by
  induction shapes generalizing bound used with
  | nil =>
    obtain rfl := eq_nil_of_lexemes spelled
    refine .bounded (by rfl) (fun bound => ?_) bound
    rw [Parser.statements]
    exact bind_lexeme (.pure ⟨rfl, rfl⟩)
  | cons shape shapes ih =>
    refine .bounded (by rfl) (fun bound => ?_) bound
    rw [List.all_cons, Bool.and_eq_true] at statements
    rw [lines, ← List.append_assoc] at spelled
    obtain ⟨first, more, rfl, written, tail⟩ := exists_of_lexemes_eq_append spelled
    have others := ih (fun other member => complete other (.tail _ member))
      (fun other member => formed other (.tail _ member)) statements.2 bound tail
    have noElse : Token.first (more ++ ⟨.mark .rbrace, span⟩ :: rest) ≠ .keyword .else :=
      first_lines_ne_else (fun other member => formed other (.tail _ member))
        (List.all_eq_true.2 fun other member =>
          isMember_of_isStatement (List.all_eq_true.1 statements.2 other member))
        tail (by simp [Token.first])
    obtain ⟨token, inside, rfl, starts⟩ :=
      exists_token_of_member (formed shape (.head _)) (isMember_of_isStatement statements.1) written
    rw [Parser.statements, List.append_assoc]
    refine bind_lexeme ?_
    split
    · rename_i ended
      rw [show token.lexeme = .mark .rbrace from ended] at starts
      cases starts
    · rename_i ended
      rw [show token.lexeme = .endOfInput from ended] at starts
      cases starts
    · refine Meets.bind ((complete shape (.head _)).statement statements.1 bound _ _ written
        fun _ => noElse) ?_
      rintro term after ⟨rfl, rfl⟩
      refine Meets.bind others ?_
      rintro terms after ⟨rfl, rfl⟩
      exact .pure ⟨rfl, rfl⟩

section

variable {note : Unit} {form : Term.Form Unit}
  (sound : Term.All (IsSound spelling) (.node note form))
  (below : ∀ child ∈ Term.parts form, child.All Complete)

include sound below

/-- A block is read. -/
theorem block_step (isBlock : isBlock (.node note form) = true) (bound : Nat)
    (spelled : Token.lexemes used = lexemes (.node note form)) :
    Gives (Parser.block bound) (used ++ rest) (.node note form) rest := by
  refine .bounded (by rfl) (fun bound => ?_) bound
  cases form with
  | block statements =>
    obtain ⟨span, used, rfl, opened⟩ := exists_of_lexemes_eq_cons spelled
    obtain ⟨inside, closing, rfl, written, closed⟩ := exists_of_lexemes_eq_append opened
    obtain ⟨span', nothing, rfl, ended⟩ := exists_of_lexemes_eq_cons closed
    obtain rfl := eq_nil_of_lexemes ended
    rw [Parser.block]
    simp only [List.cons_append, List.append_assoc, List.nil_append]
    refine bind_here fun start => bind_expect_mark ?_
    refine Meets.bind (gives_statements (fun shape member => (below shape (by simp [member])).here)
      (fun shape member => formed_of_sound ((Term.All.node_iff.1 sound).2 shape (by simp [member])))
      sound.here.formed bound written) ?_
    rintro terms after ⟨rfl, rfl⟩
    exact bind_expect_mark (.finish fun _ => ⟨by simp, rfl⟩)
  | _ => cases isBlock

/-- A conditional statement is read, with the else branch that belongs to it. -/
theorem ifStmt_step {condition thenBranch elseBranch : Option Shape}
    (isIf : form = .ifStmt condition thenBranch elseBranch) (bound : Nat)
    (spelled : Token.lexemes used = lexemes (.node note form))
    (closed : endsOpenIf (.node note form) = true → Token.first rest ≠ .keyword .else) :
    Gives (Parser.statement bound) (used ++ rest) (.node note form) rest := by
  subst isIf
  refine .bounded (by rfl) (fun bound => ?_) bound
  obtain ⟨isCondition, isThen, isElse, closedThen⟩ := sound.here.formed
  obtain ⟨condition, rfl, expression⟩ := (Option.any_eq_true _ _).1 isCondition
  obtain ⟨thenBranch, rfl, statement⟩ := (Option.any_eq_true _ _).1 isThen
  obtain ⟨span, used, rfl, opened⟩ := exists_of_lexemes_eq_cons spelled
  obtain ⟨span', used, rfl, header⟩ := exists_of_lexemes_eq_cons opened
  obtain ⟨inside, used, rfl, written, tail⟩ := exists_of_lexemes_eq_append header
  obtain ⟨span'', used, rfl, branches⟩ := exists_of_lexemes_eq_cons tail
  obtain ⟨first, second, rfl, lineThen, lineElse⟩ := exists_of_lexemes_eq_append branches
  have completeCondition := (below condition (by simp)).here
  have completeThen := (below thenBranch (by simp)).here
  rw [Parser.statement]
  simp only [List.cons_append, List.append_assoc]
  refine bind_here fun start => bind_lexeme (bind_advance (by simp) ?_)
  refine Meets.bind (gives_parenthesized completeCondition expression bound written) ?_
  rintro term after ⟨rfl, rfl⟩
  cases elseBranch with
  | none =>
    obtain rfl := eq_nil_of_lexemes lineElse
    have noElse := closed rfl
    refine Meets.bind (completeThen.statement statement bound _ _ lineThen fun _ => noElse) ?_
    rintro term' after ⟨rfl, rfl⟩
    exact bind_eatElse_other noElse (bind_pure (.finish fun _ => ⟨by simp, rfl⟩))
  | some elseBranch =>
    obtain ⟨spanElse, second, rfl, lineElse'⟩ := exists_of_lexemes_eq_cons lineElse
    have completeElse := (below elseBranch (by simp)).here
    have closedThen : endsOpenIf thenBranch = false := by simpa using closedThen
    refine Meets.bind (completeThen.statement statement bound _ _ lineThen fun openThen => ?_) ?_
    · rw [closedThen] at openThen
      cases openThen
    · rintro term' after ⟨rfl, rfl⟩
      refine bind_eatElse_keyword (bind_map ?_)
      refine Meets.bind (completeElse.statement isElse bound _ _ lineElse' closed) ?_
      rintro term'' after ⟨rfl, rfl⟩
      exact .finish fun _ => ⟨by simp, rfl⟩

/-- A conditional loop is read. -/
theorem whileLoop_step {condition body : Option Shape} (isWhile : form = .whileLoop condition body)
    (bound : Nat) (spelled : Token.lexemes used = lexemes (.node note form))
    (closed : endsOpenIf (.node note form) = true → first rest ≠ .keyword .else) :
    Gives (Parser.statement bound) (used ++ rest) (.node note form) rest := by
  subst isWhile
  refine .bounded (by rfl) (fun bound => ?_) bound
  obtain ⟨isCondition, isBody⟩ := sound.here.formed
  obtain ⟨condition, rfl, expression⟩ := (Option.any_eq_true _ _).1 isCondition
  obtain ⟨body, rfl, statement⟩ := (Option.any_eq_true _ _).1 isBody
  obtain ⟨span, used, rfl, opened⟩ := exists_of_lexemes_eq_cons spelled
  obtain ⟨span', used, rfl, header⟩ := exists_of_lexemes_eq_cons opened
  obtain ⟨inside, used, rfl, written, tail⟩ := exists_of_lexemes_eq_append header
  obtain ⟨span'', used, rfl, lineBody⟩ := exists_of_lexemes_eq_cons tail
  have completeCondition := (below condition (by simp)).here
  have completeBody := (below body (by simp)).here
  rw [Parser.statement]
  simp only [List.cons_append, List.append_assoc]
  refine bind_here fun start => bind_lexeme (bind_advance (by simp) ?_)
  refine Meets.bind (gives_parenthesized completeCondition expression bound written) ?_
  rintro term after ⟨rfl, rfl⟩
  refine Meets.bind (completeBody.statement statement bound _ _ lineBody closed) ?_
  rintro term' after ⟨rfl, rfl⟩
  exact .finish fun _ => ⟨by simp, rfl⟩

/-- A loop over a collection is read. -/
theorem forEach_step {type collection body : Option Shape} {name : String}
    (isForEach : form = .forEach type name collection body)
    (bound : Nat) (spelled : Token.lexemes used = lexemes (.node note form))
    (closed : endsOpenIf (.node note form) = true → first rest ≠ .keyword .else) :
    Gives (Parser.statement bound) (used ++ rest) (.node note form) rest := by
  subst isForEach
  refine .bounded (by rfl) (fun bound => ?_) bound
  obtain ⟨isType, -, isCollection, isBody⟩ := sound.here.formed
  obtain ⟨type, rfl, typed⟩ := (Option.any_eq_true _ _).1 isType
  obtain ⟨collection, rfl, expression⟩ := (Option.any_eq_true _ _).1 isCollection
  obtain ⟨body, rfl, statement⟩ := (Option.any_eq_true _ _).1 isBody
  obtain ⟨_, used, rfl, opened⟩ := exists_of_lexemes_eq_cons spelled
  obtain ⟨_, used, rfl, header⟩ := exists_of_lexemes_eq_cons opened
  obtain ⟨typing, used, rfl, spelledType, named⟩ := exists_of_lexemes_eq_append header
  obtain ⟨_, used, rfl, keyword⟩ := exists_of_lexemes_eq_cons named
  obtain ⟨_, used, rfl, visited⟩ := exists_of_lexemes_eq_cons keyword
  obtain ⟨inside, used, rfl, written, tail⟩ := exists_of_lexemes_eq_append visited
  obtain ⟨_, used, rfl, lineBody⟩ := exists_of_lexemes_eq_cons tail
  have completeType := (below type (by simp)).here
  have completeCollection := (below collection (by simp)).here
  have completeBody := (below body (by simp)).here
  rw [Parser.statement]
  simp only [List.cons_append, List.append_assoc]
  refine bind_here fun start => bind_lexeme (bind_advance (by simp) ?_)
  refine bind_expect_mark ?_
  refine Meets.bind (completeType.type typed bound _ _ spelledType rfl) ?_
  rintro term after ⟨rfl, rfl⟩
  refine bind_name_identifier (bind_expectKeyword_keyword ?_)
  refine Meets.bind (completeCollection.ended expression bound written rfl) ?_
  rintro term' after ⟨rfl, rfl⟩
  refine bind_expect_mark ?_
  refine Meets.bind (completeBody.statement statement bound _ _ lineBody closed) ?_
  rintro term'' after ⟨rfl, rfl⟩
  exact .finish fun _ => ⟨by simp, rfl⟩

/-- A declaration is read and taken for one. -/
theorem localDecl_step {type : Option Shape} {declarators : List Shape}
    (isDeclaration : form = .localDecl type declarators)
    (bound : Nat) {used rest : List Token}
    (spelled : Token.lexemes used = lexemes (.node note form) ++ [Lexeme.mark .semi]) :
    Gives (Parser.statement bound) (used ++ rest) (.node note form) rest := by
  subst isDeclaration
  refine .bounded (by rfl) (fun bound => ?_) bound
  obtain ⟨isType, nonempty, declares⟩ := sound.here.formed
  obtain ⟨type, rfl, typed⟩ := (Option.any_eq_true _ _).1 isType
  have allSound := (Term.All.node_iff.1 sound).2
  have formedType := formed_of_sound (allSound type (by simp))
  obtain ⟨name, more, same⟩ := exists_name_of_isType typed
  have ahead := ahead_declaration (isType_lexemes formedType typed) declares nonempty
    (Token.lexemes rest)
  simp only [lexemes, one, List.append_assoc] at spelled
  obtain ⟨first, used, rfl, spelledType, tail⟩ := exists_of_lexemes_eq_append spelled
  obtain ⟨second, used, rfl, written, closing⟩ := exists_of_lexemes_eq_append tail
  obtain ⟨span, nothing, rfl, ended⟩ := exists_of_lexemes_eq_cons closing
  obtain rfl := eq_nil_of_lexemes ended
  have ahead : Token.atLocalDecl (first ++ (second ++ ⟨.mark .semi, span⟩ :: rest)) = true := by
    rw [Token.atLocalDecl_iff]
    simpa [spelledType, written] using ahead
  simp only [List.append_assoc, List.cons_append, List.nil_append]
  refine meets_plain ?_ (fun _ start => ?_) fun noDeclaration => ?_
  · obtain ⟨span', others, rfl, -⟩ := exists_of_lexemes_eq_cons (spelledType.trans same)
    rfl
  · refine meets_declaration (below type (by simp)).here
      (fun shape member => below shape (by simp [member]))
      (fun shape member => allSound shape (by simp [member])) typed declares nonempty bound
      spelledType written ?_
    rintro term terms rfl rfl
    exact bind_expect_mark (.finish fun _ => ⟨by simp, rfl⟩)
  · rw [ahead] at noDeclaration
    cases noDeclaration

/-- An expression statement is read, since it is taken for no declaration. -/
theorem exprStmt_step {expression : Option Shape} (isStatement : form = .exprStmt expression)
    (bound : Nat)
    (spelled : Token.lexemes used = lexemes (.node note form)) :
    Gives (Parser.statement bound) (used ++ rest) (.node note form) rest := by
  subst isStatement
  refine .bounded (by rfl) (fun bound => ?_) bound
  obtain ⟨formed, noDeclaration⟩ := sound.here
  obtain ⟨inner, rfl, expression⟩ := (Option.any_eq_true _ _).1 formed
  have formedInner := formed_of_sound ((Term.All.node_iff.1 sound).2 inner (by simp))
  obtain ⟨first, more, same, starts⟩ := (front formedInner expression).exists_first
  have noAhead : Token.atLocalDecl (used ++ rest) = false := by
    rw [← Bool.not_eq_true, Token.atLocalDecl_iff, lexemes_append, spelled]
    simp only [lexemes, List.append_assoc, List.cons_append, List.nil_append]
    exact fun ahead => noDeclaration (ahead.wall rfl)
  obtain ⟨inside, closing, rfl, written, closed⟩ := exists_of_lexemes_eq_append spelled
  obtain ⟨span, nothing, rfl, ended⟩ := exists_of_lexemes_eq_cons closed
  obtain rfl := eq_nil_of_lexemes ended
  refine meets_plain ?_ (fun isDeclaration => ?_) fun _ start => ?_
  · obtain ⟨span', others, rfl, -⟩ := exists_of_lexemes_eq_cons (written.trans same)
    rcases starts with starts | ⟨-, op, -, rfl⟩
    · exact startsPlainly_of_startsPrimary starts
    · cases op <;> rfl
  · rw [noAhead] at isDeclaration
    cases isDeclaration
  · rw [List.append_assoc]
    refine Meets.bind ((below inner (by simp)).here.ended expression bound written rfl) ?_
    rintro term after ⟨rfl, rfl⟩
    exact bind_expect_mark (.finish fun _ => ⟨by simp, rfl⟩)

/-- A return statement is read. -/
theorem returnStmt_step {value : Option Shape} (isReturn : form = .returnStmt value)
    (bound : Nat)
    (spelled : Token.lexemes used = lexemes (.node note form)) :
    Gives (Parser.statement bound) (used ++ rest) (.node note form) rest := by
  subst isReturn
  refine .bounded (by rfl) (fun bound => ?_) bound
  have expression := sound.here.formed
  obtain ⟨span, used, rfl, tail⟩ := exists_of_lexemes_eq_cons spelled
  obtain ⟨inside, closing, rfl, written, closed⟩ := exists_of_lexemes_eq_append tail
  obtain ⟨span', nothing, rfl, ended⟩ := exists_of_lexemes_eq_cons closed
  obtain rfl := eq_nil_of_lexemes ended
  rw [Parser.statement]
  simp only [List.cons_append, List.append_assoc, List.nil_append]
  refine bind_here fun start => bind_lexeme (bind_advance (by simp) ?_)
  refine Meets.bind (meets_optional (fun shape member => (below shape ?_).here)
    (fun shape member => formed_of_sound ((Term.All.node_iff.1 sound).2 shape ?_)) expression bound
    written) ?_
  · simp [Option.mem_def.1 member]
  · simp [Option.mem_def.1 member]
  · rintro term after ⟨same, rfl⟩
    exact bind_expect_mark (.finish fun _ => ⟨by simp [same], rfl⟩)

/-- A counted loop is read. -/
theorem forLoop_step {declaration condition body : Option Shape}
    {initializers incrementors : List Shape}
    (isFor : form = .forLoop declaration initializers condition incrementors body)
    (bound : Nat) (spelled : Token.lexemes used = lexemes (.node note form))
    (closed : endsOpenIf (.node note form) = true → Token.first rest ≠ .keyword .else) :
    Gives (Parser.statement bound) (used ++ rest) (.node note form) rest := by
  subst isFor
  refine .bounded (by rfl) (fun bound => ?_) bound
  cases bound with
  | zero =>
    obtain ⟨span, used, rfl, -⟩ := exists_of_lexemes_eq_cons spelled
    exact bind_here fun _ => bind_lexeme (.exhausted trivial)
  | succ bound =>
    obtain ⟨formed, noDeclaration⟩ := sound.here
    obtain ⟨declares, single, areInitializers, isCondition, areSteps, isBody⟩ := formed
    obtain ⟨body, rfl, statement⟩ := (Option.any_eq_true _ _).1 isBody
    obtain ⟨span, used, rfl, opened⟩ := exists_of_lexemes_eq_cons spelled
    obtain ⟨span', used, rfl, header⟩ := exists_of_lexemes_eq_cons opened
    obtain ⟨initials, used, rfl, started, tail⟩ := exists_of_lexemes_eq_append header
    obtain ⟨span₁, used, rfl, middle⟩ := exists_of_lexemes_eq_cons tail
    obtain ⟨test, used, rfl, tested, tail₂⟩ := exists_of_lexemes_eq_append middle
    obtain ⟨span₂, used, rfl, last⟩ := exists_of_lexemes_eq_cons tail₂
    obtain ⟨steps, used, rfl, stepped, tail₃⟩ := exists_of_lexemes_eq_append last
    obtain ⟨span₃, used, rfl, lineBody⟩ := exists_of_lexemes_eq_cons tail₃
    rw [Parser.statement]
    simp only [List.cons_append, List.append_assoc]
    refine bind_here fun _ => bind_lexeme ?_
    dsimp only [Token.first]
    rw [Parser.forLoop]
    refine bind_here fun start => bind_expectKeyword_keyword ?_
    refine bind_expect_mark ?_
    have allSound := (Term.All.node_iff.1 sound).2
    have finishing {declared : Option SourceTerm} {initial : List SourceTerm}
        (sameDeclaration : declared.map Term.shape = declaration)
        (sameInitializers : initial.map Term.shape = initializers) :
        Gives (do
          expect .semi
          let condition ← Parser.optional bound .semi
          expect .semi
          let incrementors ← if ← atMark .rparen then pure [] else Parser.expressions bound
          expect .rparen
          let body ← Parser.statement bound
          finish start (.forLoop declared initial condition incrementors (some body)))
          (⟨.mark .semi, span₁⟩ :: (test ++ ⟨.mark .semi, span₂⟩ :: (steps ++
            ⟨.mark .rparen, span₃⟩ :: (used ++ rest))))
          (.node note (.forLoop declaration initializers condition incrementors (some body)))
          rest := by
      refine bind_expect_mark ?_
      refine Meets.bind (meets_optional (fun shape member => (below shape ?_).here)
        (fun shape member => formed_of_sound (allSound shape ?_)) isCondition bound tested) ?_
      · simp [Option.mem_def.1 member]
      · simp [Option.mem_def.1 member]
      rintro term after ⟨rfl, rfl⟩
      refine bind_expect_mark ?_
      have ending {terms : List SourceTerm} (same : terms.map Term.shape = incrementors) :
          Gives (do
            expect .rparen
            let body ← Parser.statement bound
            finish start (.forLoop declared initial term terms (some body)))
            (⟨.mark .rparen, span₃⟩ :: (used ++ rest)) (.node note
              (.forLoop declaration initializers (term.map Term.shape) incrementors (some body)))
            rest := by
        refine bind_expect_mark ?_
        refine Meets.bind
          ((below body (by simp)).here.statement statement bound _ _ lineBody closed) ?_
        rintro term' after ⟨rfl, rfl⟩
        exact .finish fun _ => ⟨by simp [same, sameDeclaration, sameInitializers], rfl⟩
      refine bind_atMark ?_
      by_cases none : incrementors = []
      · subst none
        obtain rfl := eq_nil_of_lexemes stepped
        exact ending rfl
      · have noEnd : Token.first (steps ++ ⟨.mark .rparen, span₃⟩ :: (used ++ rest))
            ≠ .mark .rparen := first_separated_ne (fun shape member =>
          formed_of_sound (allSound shape (by simp [member]))) areSteps none _ stepped rfl rfl
        rw [if_neg (by simpa using noEnd)]
        refine Meets.bind
          (gives_expressions (fun shape member => (below shape (by simp [member])).here)
          areSteps none bound stepped rfl (by simp [Token.first])) ?_
        rintro terms after ⟨same, rfl⟩
        exact ending same
    refine bind_here fun opening => bind_tokens ?_
    cases declaration with
    | some declaration =>
      obtain rfl : initializers = [] := single rfl
      have soundDeclaration := allSound declaration (by simp)
      have completeDeclaration := below declaration (by simp)
      rcases declaration with ⟨note', form⟩
      cases form with
      | localDecl type declarators =>
        obtain ⟨isType, nonempty, areDeclarators⟩ := soundDeclaration.here.formed
        obtain ⟨type, rfl, typed⟩ := (Option.any_eq_true _ _).1 isType
        have below' := (Term.All.node_iff.1 completeDeclaration).2
        have sound' := (Term.All.node_iff.1 soundDeclaration).2
        obtain ⟨first, second, rfl, spelledType, written⟩ :=
          exists_of_lexemes_eq_append started
        have ahead := ahead_declaration
          (isType_lexemes (formed_of_sound (sound' type (by simp))) typed) areDeclarators nonempty
        rw [if_pos (by
          rw [Token.atLocalDecl_iff]
          simpa [spelledType, written, one] using ahead _)]
        simp only [List.append_assoc]
        refine meets_declaration (below' type (by simp)).here
          (fun shape member => below' shape (by simp [member]))
          (fun shape member => sound' shape (by simp [member])) typed areDeclarators nonempty bound
          spelledType written ?_
        rintro term terms rfl rfl
        exact bind_finish fun _ => bind_pure (finishing (by simp) rfl)
      | _ => cases declares
    | none =>
      rw [if_neg ?_]
      · refine bind_atMark ?_
        by_cases none : initializers = []
        · subst none
          obtain rfl := eq_nil_of_lexemes started
          exact bind_pure (finishing rfl rfl)
        · have noSemi :
              Token.first (initials ++ ⟨.mark .semi, span₁⟩ :: (test ++ ⟨.mark .semi, span₂⟩ ::
              (steps ++ ⟨.mark .rparen, span₃⟩ :: (used ++ rest)))) ≠ .mark .semi :=
            first_separated_ne
              (fun shape member => formed_of_sound (allSound shape (by simp [member])))
              areInitializers none _ started rfl rfl
          rw [if_neg (by simpa using noSemi)]
          refine Meets.bind
            (gives_expressions (fun shape member => (below shape (by simp [member])).here)
              areInitializers none bound started rfl (by simp [Token.first])) ?_
          rintro terms after ⟨same, rfl⟩
          exact bind_pure (finishing rfl same)
      · rw [Token.atLocalDecl_iff, lexemes_append, started]
        exact fun ahead => noDeclaration (ahead.wall rfl)

/-- A statement is read, with the end of its line. -/
theorem statement_step (statement : isStatement (.node note form) = true) (bound : Nat)
    (spelled : Token.lexemes used = lexemes (.node note form) ++ closing (.node note form))
    (closed : endsOpenIf (.node note form) = true → first rest ≠ .keyword .else) :
    Gives (Parser.statement bound) (used ++ rest) (.node note form) rest := by
  cases form with
  | localDecl type declarators => exact localDecl_step sound below rfl bound spelled
  | block statements =>
    simp only [closing, List.append_nil] at spelled
    refine .bounded (by rfl) (fun bound => ?_) bound
    have read : Gives (Parser.block bound) (used ++ rest) _ rest :=
      block_step sound below rfl bound spelled
    obtain ⟨span, more, rfl, -⟩ := exists_of_lexemes_eq_cons spelled
    exact bind_here fun _ => bind_lexeme read
  | exprStmt expression =>
    simp only [closing, List.append_nil] at spelled
    exact exprStmt_step sound below rfl bound spelled
  | returnStmt value =>
    simp only [closing, List.append_nil] at spelled
    exact returnStmt_step sound below rfl bound spelled
  | ifStmt condition thenBranch elseBranch =>
    simp only [closing, List.append_nil] at spelled
    exact ifStmt_step sound below rfl bound spelled closed
  | whileLoop condition body =>
    simp only [closing, List.append_nil] at spelled
    exact whileLoop_step sound below rfl bound spelled closed
  | forLoop declaration initializers condition incrementors body =>
    simp only [closing, List.append_nil] at spelled
    exact forLoop_step sound below rfl bound spelled closed
  | forEach type name collection body =>
    simp only [closing, List.append_nil] at spelled
    exact forEach_step sound below rfl bound spelled closed
  | _ => cases statement

end

/-- The functions of the grammar read every sound shape of their sort. -/
theorem complete (sound : shape.All (IsSound spelling)) : shape.All Complete := by
  induction shape using Term.induction with
  | step note form ih =>
    have below : ∀ child ∈ Term.parts form, child.All Complete := fun child member =>
      ih child member ((Term.All.node_iff.1 sound).2 child member)
    refine Term.All.node_iff.2 ⟨?_, below⟩
    exact {
      type := fun type => gives_type sound.here.formed type fun child member =>
        (below child member).here.type
      receiver := fun operand bound further start used rest result spelled known =>
        receiver_step sound below operand bound further start spelled known
      unary := fun operand bound used rest spelled weak =>
        unary_step sound below operand bound spelled weak
      binary := fun level low high operand bound used rest result spelled weak known =>
        binary_step sound below low high operand bound spelled weak known
      coalesce := fun operand bound used rest spelled outside closed =>
        coalesce_step sound below operand bound spelled outside closed
      lambda := fun lambda bound used rest spelled outside closed =>
        lambda_step sound below lambda bound spelled outside closed
      expression := fun expression bound used rest spelled outside closed =>
        expression_step sound below expression bound spelled outside closed
      block := fun block bound used rest spelled => block_step sound below block bound spelled
      statement := fun statement bound used rest spelled closed =>
        statement_step sound below statement bound spelled closed }

/-- The parameters of a method are read up to the closing parenthesis. -/
theorem gives_methodParams (complete : ∀ shape ∈ shapes, shape.All Complete)
    (sound : ∀ shape ∈ shapes, shape.All (IsSound spelling))
    (typed : shapes.all isTypedParam = true)
    (nonempty : shapes ≠ []) (bound : Nat)
    (spelled : Token.lexemes used = separated true shapes) :
    GivesAll (methodParams bound) (used ++ ⟨.mark .rparen, span⟩ :: rest) shapes
      (⟨.mark .rparen, span⟩ :: rest) := by
  induction shapes generalizing bound used with
  | nil => exact absurd rfl nonempty
  | cons shape shapes ih =>
    refine .bounded (by rfl) (fun bound => ?_) bound
    rw [List.all_cons, Bool.and_eq_true] at typed
    rw [separated_true] at spelled
    obtain ⟨first, more, rfl, written, tail⟩ := exists_of_lexemes_eq_append spelled
    obtain ⟨note, type, name, rfl⟩ := exists_type_of_isTypedParam typed.1
    obtain ⟨isType, -⟩ := (sound _ (.head _)).here.formed
    have completeType := ((Term.All.node_iff.1 (complete _ (.head _))).2 type (by simp)).here
    obtain ⟨typing, named, rfl, spelledType, spelledName⟩ :=
      exists_of_lexemes_eq_append written
    obtain ⟨span', nothing, rfl, ended⟩ := exists_of_lexemes_eq_cons spelledName
    obtain rfl := eq_nil_of_lexemes ended
    rw [methodParams]
    simp only [List.append_assoc, List.cons_append, List.nil_append]
    refine bind_here fun start => ?_
    refine Meets.bind (completeType.type isType bound _ _ spelledType rfl) ?_
    rintro term after ⟨rfl, rfl⟩
    refine bind_name_identifier (bind_finish fun _ => ?_)
    rcases rest_of_items tail with ⟨rfl, rfl⟩ | ⟨others, span'', more, rfl, items⟩
    · exact bind_eat_other (by simp [Token.first]) (.pure (by simp))
    · refine bind_eat_mark ?_
      refine Meets.bind (ih (fun other member => complete other (.tail _ member))
        (fun other member => sound other (.tail _ member)) typed.2 others bound items) ?_
      rintro terms after ⟨rfl, rfl⟩
      exact .pure (by simp)

/-- A method is read. -/
theorem gives_method (sound : shape.All (IsSound spelling)) (isMethod : shape.kind.isMethod = true)
    (bound : Nat) (spelled : Token.lexemes used = lexemes shape) :
    Gives (method bound) (used ++ rest) shape rest := by
  rcases shape with ⟨note, form⟩
  cases form with
  | method result name params body =>
    obtain ⟨isResult, -, areParams, isBody⟩ := sound.here.formed
    obtain ⟨result, rfl, typed⟩ := (Option.any_eq_true _ _).1 isResult
    obtain ⟨body, rfl, block⟩ := (Option.any_eq_true _ _).1 isBody
    have allSound := (Term.All.node_iff.1 sound).2
    have allComplete := (Term.All.node_iff.1 (complete sound)).2
    obtain ⟨typing, used, rfl, spelledType, named⟩ := exists_of_lexemes_eq_append spelled
    obtain ⟨span₁, used, rfl, opened⟩ := exists_of_lexemes_eq_cons named
    obtain ⟨span₂, used, rfl, header⟩ := exists_of_lexemes_eq_cons opened
    obtain ⟨items, used, rfl, listed, tail⟩ := exists_of_lexemes_eq_append header
    obtain ⟨span₃, used, rfl, written⟩ := exists_of_lexemes_eq_cons tail
    rw [method]
    simp only [List.append_assoc, List.cons_append]
    refine bind_here fun start => ?_
    refine Meets.bind ((allComplete result (by simp)).here.type typed bound _ _ spelledType rfl) ?_
    rintro term after ⟨rfl, rfl⟩
    refine bind_name_identifier (bind_expect_mark ?_)
    have finishing {terms : List SourceTerm} (same : terms.map Term.shape = params) :
        Gives (do
          expect .rparen
          let body ← Parser.block bound
          finish start (.method (some term) name terms (some body)))
          (⟨.mark .rparen, span₃⟩ :: (used ++ rest))
          (.node note (.method (some term.shape) name params (some body))) rest := by
      refine bind_expect_mark ?_
      refine Meets.bind ((allComplete body (by simp)).here.block block bound _ _ written) ?_
      rintro term' after ⟨rfl, rfl⟩
      exact .finish fun _ => ⟨by simp [same], rfl⟩
    refine bind_atMark ?_
    cases params with
    | nil =>
      obtain rfl := eq_nil_of_lexemes listed
      exact bind_pure (finishing rfl)
    | cons param params =>
      have noEnd :
          Token.first (items ++ ⟨.mark .rparen, span₃⟩ :: (used ++ rest)) ≠ .mark .rparen := by
        obtain ⟨note, type, name, rfl⟩ :=
          exists_type_of_isTypedParam (List.all_eq_true.1 areParams param (.head _))
        obtain ⟨isType, -⟩ :=
          (allSound (.node note (.param (some type) name)) (by simp)).here.formed
        obtain ⟨first, more, same⟩ := exists_name_of_isType isType
        rw [separated_true] at listed
        simp only [lexemes, Shape.optional, same, List.cons_append] at listed
        obtain ⟨_, _, rfl, -⟩ := exists_of_lexemes_eq_cons listed
        simp [Token.first]
      rw [if_neg (by simpa using noEnd)]
      refine Meets.bind (gives_methodParams (fun shape member => allComplete shape (by simp_all))
        (fun shape member => allSound shape (by simp_all)) areParams (by simp) bound listed) ?_
      rintro terms after ⟨same, rfl⟩
      exact finishing same
  | _ => cases isMethod

/-- The lookahead sees a method where one is. -/
theorem ahead_method (formed : shape.All (IsFormed spelling))
    (isMethod : shape.kind.isMethod = true) (after : List Lexeme) :
    Ahead followsMethod (lexemes shape ++ after) := by
  rcases shape with ⟨note, form⟩
  cases form with
  | method result name params body =>
    obtain ⟨isResult, -⟩ := formed.here
    obtain ⟨result, rfl, typed⟩ := (Option.any_eq_true _ _).1 isResult
    have isType := isType_lexemes ((Term.All.node_iff.1 formed).2 result (by simp)) typed
    refine ⟨lexemes result, name, .mark .lparen,
      separated true params ++ .mark .rparen :: (one body ++ after), isType, rfl, ?_⟩
    simp [lexemes, one]
  | _ => cases isMethod

/-- The lookahead sees no method where the first lexeme is no name. -/
theorem not_ahead_of_keyword {follows : Lexeme → Bool} {first : Lexeme} {more : List Lexeme}
    (noName : ∀ name, first ≠ .identifier name) : ¬Ahead follows (first :: more) := by
  rintro ⟨type, name, next, rest, isType, -, same⟩
  cases isType with
  | named name' rank => exact noName name' (List.cons.inj same).1
  | generic name' inside rank => exact noName name' (List.cons.inj same).1

/-- The lookahead sees no method where a statement is, unless it is an expression that looks like
one. -/
theorem not_ahead_of_statement (formed : shape.All (IsFormed spelling))
    (statement : isStatement shape = true)
    (noMethod : ∀ expression note, shape = .node note (.exprStmt expression) →
      ¬Ahead followsMethod (one expression ++ [Lexeme.mark .semi])) (after : List Lexeme) :
    ¬Ahead followsMethod (lexemes shape ++ closing shape ++ after) := by
  rcases shape with ⟨note, form⟩
  cases form with
  | exprStmt expression =>
    intro ahead
    refine noMethod expression note rfl (@Ahead.wall _ _ after _ _ rfl ?_)
    simpa [lexemes, closing] using ahead
  | localDecl type declarators =>
    obtain ⟨isType, nonempty, declares⟩ := formed.here
    obtain ⟨type, rfl, typed⟩ := (Option.any_eq_true _ _).1 isType
    have typeSpelled := isType_lexemes ((Term.All.node_iff.1 formed).2 type (by simp)) typed
    obtain ⟨front, name, next, rest, isType', follows, same⟩ :=
      ahead_declaration typeSpelled declares nonempty after
    intro ahead
    simp only [lexemes, one, closing, List.append_assoc, List.cons_append, List.nil_append] at ahead
    rw [same] at ahead
    have opens := ahead.follows_of_isType isType'
    unfold followsMethod at opens
    split at opens
    · cases follows
    · cases opens
  | block statements => exact not_ahead_of_keyword (by simp)
  | returnStmt value => exact not_ahead_of_keyword (by simp)
  | ifStmt condition thenBranch elseBranch => exact not_ahead_of_keyword (by simp)
  | whileLoop condition body => exact not_ahead_of_keyword (by simp)
  | forLoop declaration initializers condition incrementors body =>
    exact not_ahead_of_keyword (by simp)
  | forEach type name collection body => exact not_ahead_of_keyword (by simp)
  | _ => cases statement

/-- A unit has a statement that looks like a method where the lookahead sees one. -/
theorem isFalseMethod_iff {note : Unit} {members : List Shape}
    (formed : ∀ member ∈ members, member.All (IsFormed spelling)) :
    IsFalseMethod (.node note (.unit members)) ↔
      ∃ member ∈ members, isStatement member = true ∧ Ahead followsMethod (lexemes member) := by
  constructor
  · rintro ⟨expression, note', inside, ahead⟩
    exact ⟨_, inside, rfl, ahead⟩
  · rintro ⟨member, inside, statement, ahead⟩
    by_contra noMethod
    refine not_ahead_of_statement (formed member inside) statement ?_ [] ?_
    · rintro expression note' rfl ahead
      exact noMethod ⟨expression, note', inside, ahead⟩
    · rw [List.append_assoc]
      exact ahead.append _

/-- A unit and its members in front of the end of the input. -/
theorem gives_members (sound : ∀ shape ∈ shapes, shape.All (IsSound spelling))
    (members : shapes.all isMember = true)
    (noMethod : ∀ expression note, .node note (.exprStmt expression) ∈ shapes →
      ¬Ahead followsMethod (one expression ++ [Lexeme.mark .semi]))
    (bound : Nat) (spelled : Token.lexemes used = lines shapes) :
    GivesAll (Parser.members bound) (used ++ ⟨.endOfInput, span⟩ :: rest) shapes
      (⟨.endOfInput, span⟩ :: rest) := by
  induction shapes generalizing bound used with
  | nil =>
    obtain rfl := eq_nil_of_lexemes spelled
    refine .bounded (by rfl) (fun bound => ?_) bound
    rw [Parser.members]
    exact bind_lexeme (.pure ⟨rfl, rfl⟩)
  | cons shape shapes ih =>
    refine .bounded (by rfl) (fun bound => ?_) bound
    rw [List.all_cons, Bool.and_eq_true] at members
    rw [lines, ← List.append_assoc] at spelled
    obtain ⟨first, more, rfl, written, tail⟩ := exists_of_lexemes_eq_append spelled
    have others := ih (fun other member => sound other (.tail _ member)) members.2
      (fun expression note member => noMethod expression note (.tail _ member)) bound tail
    have formed {other : Shape} (member : other ∈ shape :: shapes) :=
      formed_of_sound (sound other member)
    have noElse : Token.first (more ++ ⟨.endOfInput, span⟩ :: rest) ≠ .keyword .else :=
      first_lines_ne_else (fun other member => formed (.tail _ member)) members.2 tail
        (by simp [Token.first])
    have noEnd : Token.first (first ++ (more ++ ⟨.endOfInput, span⟩ :: rest)) ≠ .endOfInput := by
      obtain ⟨token, inside, rfl, starts⟩ :=
        exists_token_of_member (formed (.head _)) members.1 written
      intro ended
      rw [show token.lexeme = .endOfInput from ended] at starts
      cases starts
    have soundShape := sound shape (.head _)
    rw [Parser.members, List.append_assoc]
    refine bind_lexeme ?_
    rw [if_neg (by simpa using noEnd)]
    refine bind_tokens ?_
    have known {term : SourceTerm} (same : term.shape = shape) :
        GivesAll (do
          let others ← Parser.members bound
          return term :: others) (more ++ ⟨.endOfInput, span⟩ :: rest) (shape :: shapes)
          (⟨.endOfInput, span⟩ :: rest) := by
      refine Meets.bind others ?_
      rintro terms after ⟨rfl, rfl⟩
      exact .pure (by simp [same])
    by_cases isMethod : shape.kind.isMethod = true
    · have nothing : closing shape = [] := by
        rcases shape with ⟨note, form⟩
        cases form <;> first | rfl | cases isMethod
      rw [nothing, List.append_nil] at written
      rw [if_pos (by
        rw [Token.atMethod_iff, lexemes_append, written]
        exact ahead_method (formed (.head _)) isMethod _)]
      refine Meets.bind (gives_method soundShape isMethod bound written) ?_
      rintro term after ⟨same, rfl⟩
      exact known same
    · have statement : isStatement shape = true := by
        simpa [isMember, isStatement, isMethod] using members.1
      rw [if_neg (by
        rw [Token.atMethod_iff, lexemes_append, written]
        refine not_ahead_of_statement (formed (.head _)) statement ?_ _
        rintro expression note rfl
        exact noMethod expression note (.head _))]
      refine Meets.bind ((complete soundShape).here.statement statement bound _ _ written
        fun _ => noElse) ?_
      rintro term after ⟨same, rfl⟩
      exact known same

/-- A unit is read to the end of the input. -/
theorem gives_unit (readable : Readable spelling shape) {tokens : List Token}
    (spelled : Token.lexemes tokens = lexemes shape ++ [Lexeme.endOfInput]) (bound : Nat) :
    Meets (Parser.unit bound) tokens (fun term _ => term.shape = shape) False True := by
  rcases shape with ⟨note, form⟩
  obtain ⟨isUnit, sound, noMethod⟩ := readable
  cases form with
  | unit members =>
    obtain ⟨used, rest, rfl, written, ended⟩ := exists_of_lexemes_eq_append spelled
    obtain ⟨span, nothing, rfl, -⟩ := exists_of_lexemes_eq_cons ended
    rw [Parser.unit]
    refine Meets.bind (gives_members (fun member inside => (Term.All.node_iff.1 sound).2 member
      (by simpa using inside)) sound.here.formed ?_ bound written) ?_
    · exact fun expression note member ahead => noMethod ⟨expression, note, member, ahead⟩
    · rintro terms after ⟨rfl, rfl⟩
      exact bind_here fun _ => .pure (by simp)
  | _ => cases isUnit

end Parser

end Refactory
