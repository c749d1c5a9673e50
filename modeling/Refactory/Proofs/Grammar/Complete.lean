import Refactory.Proofs.Grammar.Front
import Refactory.Proofs.Grammar.Run
import Refactory.Proofs.Term.Shape

/-!
# What is readable is read

A sound shape is what reading its lexemes gives, as long as nothing after them goes on with it: each
function of the grammar reads the shapes of its sort (`Parser.Complete`). A bound that runs out is
left aside here, since the bound of a unit never does.

The operators of one precedence are read in a loop that starts with a leftmost operand, while the
shape has the last operation on top. So a left operand is described by what the loop does after it
(`Parser.Complete.binary`), and in the same way a receiver (`Parser.Complete.receiver`).
-/
namespace Refactory

variable {least : Nat} {shapes : List Shape} {span : Span} {lexeme : Lexeme}

namespace Lexeme

/-- How tightly a lexeme goes on with an expression before it. -/
def strength (lexeme : Lexeme) : Nat :=
  match lexeme with
  | .mark .dot | .mark .questionDot | .mark .lparen | .mark .lbracket | .mark .plusPlus
  | .mark .minusMinus => Shape.postfixLevel
  | lexeme => ((BinaryOp.ofLexeme? lexeme).map BinaryOp.precedence).getD 0

/-- A lexeme that goes on with no expression except that it may assign to one. -/
def IsOutside (lexeme : Lexeme) : Prop := strength lexeme = 0 ∧ lexeme ≠ .mark .arrow

/-- The marks that expressions stand before. -/
def ends : Lexeme → Bool
  | .mark .rparen | .mark .rbracket | .mark .comma | .mark .semi => true
  | _ => false

end Lexeme

namespace Parser

open Shape Lexeme Meets
open Token (endsType eq_nil_of_lexemes exists_of_lexemes_eq_append exists_of_lexemes_eq_cons first
  lexemes_append)

variable {spelling : Spelling}

/-- A parser in front of tokens gives one shape and leaves the rest, unless its bound runs out. -/
def Gives (parser : Parser SourceTerm) (tokens : List Token) (shape : Shape) (rest : List Token) :
    Prop := Meets parser tokens (fun term after => term.shape = shape ∧ after = rest) False True

/-- A parser in front of tokens gives a list of shapes and leaves the rest, unless its bound runs
out. -/
def GivesAll (parser : Parser (List SourceTerm)) (tokens : List Token) (shapes : List Shape)
    (rest : List Token) : Prop :=
  Meets parser tokens (fun terms after => terms.map Term.shape = shapes ∧ after = rest) False True

/-- A shape is read as a type. -/
def GivesType (shape : Shape) : Prop :=
  ∀ bound used rest, Token.lexemes used = lexemes shape → endsType (first rest) = true →
    Gives (typeRef bound) (used ++ rest) shape rest

/-- The first lexeme of array suffixes opens none of the type arguments. -/
theorem first_brackets {rank : Nat} {used rest : List Token}
    (spelled : Token.lexemes used = brackets rank) (ends : endsType (Token.first rest) = true) :
    Token.first (used ++ rest) ≠ .mark .lt := by
  cases rank with
  | zero =>
    obtain rfl : used = [] := by simpa [Token.lexemes, brackets] using spelled
    intro same
    simp only [List.nil_append] at same
    simp [same, endsType] at ends
  | succ rank =>
    obtain ⟨span, more, rfl, -⟩ := exists_of_lexemes_eq_cons spelled
    simp [Token.first]

/-- After an item comes nothing more or a comma with the other items. -/
theorem rest_of_items {used : List Token}
    (spelled : Token.lexemes used = separated false shapes) :
    shapes = [] ∧ used = [] ∨ shapes ≠ [] ∧ ∃ span more, used = ⟨.mark .comma, span⟩ :: more ∧
      Token.lexemes more = separated true shapes := by
  cases shapes with
  | nil => exact .inl ⟨rfl, eq_nil_of_lexemes spelled⟩
  | cons shape shapes =>
    rw [← separated_false (by simp)] at spelled
    obtain ⟨span, more, rfl, written⟩ := exists_of_lexemes_eq_cons spelled
    exact .inr ⟨by simp, span, more, rfl, written⟩

/-- Type arguments are read up to the mark that closes them. -/
theorem gives_typeArguments (types : ∀ shape ∈ shapes, GivesType shape)
    (nonempty : shapes ≠ []) (bound : Nat) {used rest : List Token}
    (spelled : Token.lexemes used = separated true shapes) :
    GivesAll (typeArguments bound) (used ++ ⟨.mark .gt, span⟩ :: rest) shapes rest := by
  induction shapes generalizing bound used with
  | nil => exact absurd rfl nonempty
  | cons shape shapes ih =>
    refine .bounded (by rfl) (fun bound => ?_) bound
    rw [separated_true] at spelled
    obtain ⟨first, more, rfl, written, tail⟩ := exists_of_lexemes_eq_append spelled
    rw [typeArguments, List.append_assoc]
    have shapeFirst := types shape (.head _) bound first
    rcases rest_of_items tail with ⟨rfl, rfl⟩ | ⟨others, span', more, rfl, items⟩
    · refine Meets.bind (shapeFirst _ written rfl) ?_
      rintro term after ⟨rfl, rfl⟩
      exact bind_eat_other (by simp [Token.first])
        (bind_expect_mark (.pure ⟨rfl, rfl⟩))
    · refine Meets.bind (shapeFirst _ written rfl) ?_
      rintro term after ⟨rfl, rfl⟩
      refine bind_eat_mark ?_
      refine Meets.bind
        (ih (fun other member => types other (.tail _ member)) others bound items) ?_
      rintro terms after ⟨rfl, rfl⟩
      exact .pure ⟨rfl, rfl⟩

/-- A type is read whole. -/
theorem gives_type {note : Unit} {form : Term.Form Unit}
    (formed : IsFormed spelling (.node note form))
    (isType : isType (.node note form) = true)
    (below : ∀ child ∈ Term.parts form, Shape.isType child = true → GivesType child) :
    GivesType (.node note form) := by
  intro bound used rest spelled ends
  cases form with
  | typeRef name arguments rank =>
    obtain ⟨-, areTypes, small⟩ := formed
    have noBracket : first rest ≠ .mark .lbracket := by
      intro same
      simp [same, endsType] at ends
    refine .bounded (by rfl) (fun bound => ?_) bound
    obtain ⟨span, used, rfl, tail⟩ := exists_of_lexemes_eq_cons spelled
    obtain ⟨inner, suffixes, rfl, written, ranked⟩ := exists_of_lexemes_eq_append tail
    have finishing {terms : List SourceTerm} (same : terms.map Term.shape = arguments)
        (start : Span) :
        Gives (do
          let rank := Token.rank (← Parser.tokens)
          skip (2 * rank)
          finish start (.typeRef name terms (min rank largestRank))) (suffixes ++ rest)
          (.node note (.typeRef name arguments rank)) rest := by
      refine bind_tokens ?_
      dsimp only
      rw [Token.rank_append ranked noBracket, ← Token.length_of_brackets ranked]
      refine bind_skip (inside_of_brackets ranked) (.finish fun _ => ⟨?_, rfl⟩)
      simp [same, Nat.min_eq_left small]
    rw [typeRef, List.cons_append, List.append_assoc]
    refine bind_here fun start => bind_name_identifier ?_
    cases arguments with
    | nil =>
      obtain rfl := eq_nil_of_lexemes written
      rw [List.nil_append]
      exact bind_eat_other (first_brackets ranked ends) (finishing rfl start)
    | cons argument arguments =>
      simp only [bracketed, ← List.append_assoc, ← separated_true] at written
      obtain ⟨span', inner, rfl, opened⟩ := exists_of_lexemes_eq_cons written
      obtain ⟨inner, closing, rfl, items, closed⟩ := exists_of_lexemes_eq_append opened
      obtain ⟨span'', nothing, rfl, ended⟩ := exists_of_lexemes_eq_cons closed
      obtain rfl := eq_nil_of_lexemes ended
      have types : ∀ shape ∈ argument :: arguments, GivesType shape := fun shape member =>
        below shape (by simpa using member) (List.all_eq_true.1 areTypes shape member)
      simp only [List.cons_append, List.append_assoc, List.nil_append]
      refine bind_eat_mark ?_
      refine Meets.bind (gives_typeArguments types (by simp) bound items) ?_
      rintro terms after ⟨same, rfl⟩
      exact finishing same start
  | _ => cases isType

/-- What every function of the grammar makes of a shape of its sort. -/
structure Complete (shape : Shape) : Prop where
  /-- Types are read. -/
  type : isType shape = true → GivesType shape
  /-- Receivers are read before what follows them. -/
  receiver : isOperand postfixLevel shape = true → ∀ bound further start used rest result,
    Token.lexemes used = lexemes shape →
    (∀ bound term, term.shape = shape →
      Meets (postfixRest bound start term) rest result False True) →
    Meets (primary bound >>= postfixRest further start) (used ++ rest) result False True
  /-- Operands of operators in front are read. -/
  unary : isOperand prefixLevel shape = true → ∀ bound used rest,
    Token.lexemes used = lexemes shape → strength (first rest) < prefixLevel →
    Gives (unary bound) (used ++ rest) shape rest
  /-- Left operands are read before the operators that follow them. -/
  binary : ∀ level, 2 ≤ level → level < prefixLevel → isOperand level shape = true →
    ∀ bound used rest result, Token.lexemes used = lexemes shape →
    strength (first rest) ≤ level →
    (∀ bound start term, term.shape = shape →
      Meets (binaryRest bound level start term) rest result False True) →
    Meets (binary bound level) (used ++ rest) result False True
  /-- Coalescing operations are read. -/
  coalesce : isOperand BinaryOp.coalesce.precedence shape = true → ∀ bound used rest,
    Token.lexemes used = lexemes shape → IsOutside (first rest) →
    (endsOpen shape = true → AssignOp.ofLexeme? (first rest) = none) →
    Gives (coalesce bound) (used ++ rest) shape rest
  /-- Lambdas are read. -/
  lambda : isLambda shape = true → ∀ bound used rest,
    Token.lexemes used = lexemes shape → IsOutside (first rest) →
    (swallows shape = true → AssignOp.ofLexeme? (first rest) = none) →
    Gives (lambda bound) (used ++ rest) shape rest
  /-- Expressions are read. -/
  expression : isExpression shape = true → ∀ bound used rest,
    Token.lexemes used = lexemes shape → IsOutside (first rest) →
    (swallows shape = true → AssignOp.ofLexeme? (first rest) = none) →
    Gives (expression bound) (used ++ rest) shape rest
  /-- Blocks are read. -/
  block : isBlock shape = true → ∀ bound used rest, Token.lexemes used = lexemes shape →
    Gives (block bound) (used ++ rest) shape rest
  /-- Statements are read, with the end of their line. -/
  statement : isStatement shape = true → ∀ bound used rest,
    Token.lexemes used = lexemes shape ++ closing shape →
    (endsOpenIf shape = true → first rest ≠ .keyword .else) →
    Gives (statement bound) (used ++ rest) shape rest

/-- A binary operator binds as tightly as its precedence says. -/
theorem strength_mark (op : BinaryOp) : strength (.mark op.mark) = op.precedence := by
  cases op <;> rfl

/-- An assignment operator goes on with no operand. -/
theorem isOutside_assign (op : AssignOp) : IsOutside (.mark op.mark) := by
  cases op <;> exact ⟨rfl, by simp [AssignOp.mark]⟩

/-- No arrow comes after an expression. -/
theorem noArrow_of_outside {rest : List Token} (outside : IsOutside (first rest)) :
    ∀ after, Token.lexemes rest ≠ .mark .arrow :: after := by
  intro after same
  obtain ⟨span, more, rfl, -⟩ := exists_of_lexemes_eq_cons same
  exact outside.2 rfl

/-- The marks that end expressions go on with none. -/
theorem isOutside_of_ends (ends : ends lexeme = true) : IsOutside lexeme := by
  unfold Lexeme.ends at ends
  split at ends <;> first | exact ⟨rfl, by simp⟩ | cases ends

theorem assign_of_ends (ends : ends lexeme = true) :
    AssignOp.ofLexeme? lexeme = none := by
  unfold Lexeme.ends at ends
  split at ends <;> first | rfl | cases ends

section

variable {bound : Nat} {start : Span} {term : SourceTerm} {rest : List Token}
  {result : SourceTerm → List Token → Prop}

/-- No operator of a precedence follows. -/
theorem binaryRest_stops {level : Nat} (weak : strength (first rest) < level)
    (known : result term rest) :
    Meets (binaryRest bound level start term) rest result False True := by
  cases bound with
  | zero => exact .exhausted trivial
  | succ bound =>
    rw [binaryRest]
    refine bind_lexeme ?_
    split
    · rename_i op isOp
      rw [BinaryOp.ofLexeme?_eq_some.1 isOp, strength_mark] at weak
      rw [if_neg (Nat.ne_of_lt weak)]
      exact .pure known
    · exact .pure known

/-- Nothing follows that makes a receiver. -/
theorem postfixRest_stops (weak : strength (Token.first rest) < postfixLevel)
    (known : result term rest) :
    Meets (postfixRest bound start term) rest result False True := by
  cases bound with
  | zero => exact .exhausted trivial
  | succ bound =>
    rw [postfixRest]
    refine bind_lexeme ?_
    split
    case h_7 => exact .pure known
    all_goals
      rename_i next
      rw [next] at weak
      exact absurd weak (by decide)

end

namespace Complete

variable {shape : Shape} {used rest : List Token}

/-- Operands of binary operators are read. -/
theorem operand (complete : Complete shape) {level : Nat} (low : 2 ≤ level)
    (high : level ≤ prefixLevel) (operand : isOperand level shape = true) (bound : Nat)
    (spelled : Token.lexemes used = lexemes shape) (weak : strength (first rest) < level) :
    Gives (Parser.binary bound level) (used ++ rest) shape rest := by
  rcases Nat.lt_or_eq_of_le high with lower | rfl
  · exact complete.binary level low lower operand bound used rest _ spelled (Nat.le_of_lt weak)
      fun _ _ _ same => binaryRest_stops weak ⟨same, rfl⟩
  · cases bound with
    | zero => exact .exhausted trivial
    | succ bound =>
      rw [Parser.binary, if_pos (by decide)]
      exact complete.unary operand bound used rest spelled weak

/-- Expressions are read before the marks that end them. -/
theorem ended (complete : Complete shape) (expression : isExpression shape = true) (bound : Nat)
    (spelled : Token.lexemes used = lexemes shape) (ends : ends (first rest) = true) :
    Gives (Parser.expression bound) (used ++ rest) shape rest :=
  complete.expression expression bound used rest spelled (isOutside_of_ends ends)
    fun _ => assign_of_ends ends

end Complete

/-- The nodes of a sound shape are formed. -/
theorem formed_of_sound {shape : Shape} (sound : shape.All (IsSound spelling)) :
    shape.All (IsFormed spelling) :=
  sound.mono fun _ => IsSound.formed

/-- A block starts with a brace. -/
theorem exists_lbrace {shape : Shape} (block : isBlock shape = true) :
    ∃ more, lexemes shape = .mark .lbrace :: more := by
  rcases shape with ⟨note, form⟩
  cases form with
  | block statements => exact ⟨_, rfl⟩
  | _ => cases block

/-- A literal or a name is read as a receiver. -/
theorem receiver_of_leaf {shape : Shape} {used rest : List Token}
    {result : SourceTerm → List Token → Prop} {bound further : Nat} {start : Span}
    (spelled : Token.lexemes used = [lexeme])
    (literal : ∀ span, Gives (primary bound) (⟨lexeme, span⟩ :: rest) shape rest)
    (known : ∀ bound term, term.shape = shape →
      Meets (postfixRest bound start term) rest result False True) :
    Meets (primary bound >>= postfixRest further start) (used ++ rest) result False True := by
  obtain ⟨span, nothing, rfl, ended⟩ := exists_of_lexemes_eq_cons spelled
  obtain rfl := eq_nil_of_lexemes ended
  refine Meets.bind (literal span) ?_
  rintro term after ⟨same, rfl⟩
  exact known further term same

/-- A literal is read from its token. -/
theorem gives_literal {shape : Shape} {token : Token} {rest : List Token} {kind : Term.Form Span}
    (more : token.lexeme ≠ .endOfInput) (same : ∀ span, Term.shape (.node span kind) = shape) :
    Gives (literal kind) (token :: rest) shape rest :=
  Meets.literal more fun span => ⟨same span, rfl⟩

/-- An expression starts with none of the lexemes that would end a list or change what is passed. -/
theorem exists_first_of_expression {shape : Shape} (formed : shape.All (IsFormed spelling))
    (expression : isExpression shape = true) {used : List Token}
    (spelled : Token.lexemes used = lexemes shape) :
    ∃ token more, used = token :: more ∧ (token.lexeme.startsPrimary = true ∨
      ∃ op : UnaryOp, op.isPostfix = false ∧ token.lexeme = .mark op.mark) := by
  obtain ⟨first, more, same, starts⟩ := (front formed expression).exists_first
  rw [same] at spelled
  obtain ⟨span, more, rfl, -⟩ := exists_of_lexemes_eq_cons spelled
  exact ⟨_, more, rfl, starts.imp_right And.right⟩

/-- No expression starts with a lexeme of another sort. -/
theorem first_ne {shape : Shape} (formed : shape.All (IsFormed spelling))
    (expression : isExpression shape = true) {used : List Token} (rest : List Token)
    (spelled : Token.lexemes used = lexemes shape) {lexeme : Lexeme}
    (noPrimary : lexeme.startsPrimary = false)
    (noOperator : UnaryOp.ofLeadingLexeme? lexeme = none) :
    first (used ++ rest) ≠ lexeme := by
  obtain ⟨token, more, rfl, starts⟩ := exists_first_of_expression formed expression spelled
  rintro rfl
  rcases starts with starts | ⟨op, isPrefix, same⟩
  · exact absurd (starts.symm.trans noPrimary) (by simp)
  · have leading := UnaryOp.ofLeadingLexeme?_eq_some.2 ⟨same, isPrefix⟩
    cases leading.symm.trans noOperator

/-- Expressions are read up to what is no comma. -/
theorem gives_expressions (complete : ∀ shape ∈ shapes, Complete shape)
    (expressions : shapes.all isExpression = true) (nonempty : shapes ≠ []) (bound : Nat)
    {used rest : List Token} (spelled : Token.lexemes used = separated true shapes)
    (ends : ends (Token.first rest) = true) (last : Token.first rest ≠ .mark .comma) :
    GivesAll (Parser.expressions bound) (used ++ rest) shapes rest := by
  induction shapes generalizing bound used with
  | nil => exact absurd rfl nonempty
  | cons shape shapes ih =>
    refine .bounded (by rfl) (fun bound => ?_) bound
    rw [List.all_cons, Bool.and_eq_true] at expressions
    rw [separated_true] at spelled
    obtain ⟨first, more, rfl, written, tail⟩ := exists_of_lexemes_eq_append spelled
    have completeFirst := complete shape (.head _)
    rw [Parser.expressions, List.append_assoc]
    rcases rest_of_items tail with ⟨rfl, rfl⟩ | ⟨others, span', more, rfl, items⟩
    · refine Meets.bind (completeFirst.ended expressions.1 bound written ends) ?_
      rintro term after ⟨rfl, rfl⟩
      exact bind_eat_other last (.pure ⟨rfl, rfl⟩)
    · refine Meets.bind (completeFirst.ended expressions.1 bound written rfl) ?_
      rintro term after ⟨rfl, rfl⟩
      refine bind_eat_mark ?_
      refine Meets.bind
        (ih (fun other member => complete other (.tail _ member)) expressions.2 others
        bound items) ?_
      rintro terms after ⟨rfl, rfl⟩
      exact .pure ⟨rfl, rfl⟩

/-- Arguments are read up to the closing parenthesis. -/
theorem gives_arguments (complete : ∀ shape ∈ shapes, shape.All Complete)
    (sound : ∀ shape ∈ shapes, shape.All (IsSound spelling))
    (arguments : shapes.all isArgument = true)
    (bound : Nat) {used rest : List Token}
    (spelled : Token.lexemes used = separated true shapes) :
    GivesAll (Parser.arguments bound) (used ++ ⟨.mark .rparen, span⟩ :: rest) shapes
      (⟨.mark .rparen, span⟩ :: rest) := by
  induction shapes generalizing bound used with
  | nil =>
    obtain rfl := eq_nil_of_lexemes spelled
    refine .bounded (by rfl) (fun bound => ?_) bound
    rw [Parser.arguments]
    exact bind_atMark (.pure ⟨rfl, rfl⟩)
  | cons shape shapes ih =>
    refine .bounded (by rfl) (fun bound => ?_) bound
    rw [List.all_cons, Bool.and_eq_true] at arguments
    rw [separated_true] at spelled
    obtain ⟨first, more, rfl, written, tail⟩ := exists_of_lexemes_eq_append spelled
    have completeShape := complete shape (.head _)
    have soundShape := sound shape (.head _)
    rcases shape with ⟨note, form⟩
    cases form with
    | argument modifier value =>
      obtain ⟨value, rfl, expression⟩ := (Option.any_eq_true _ _).1 soundShape.here.formed
      have member : value ∈ Term.children (.node note (.argument modifier (some value))) := by
        simp [Term.children, Term.kind]
      have completeValue := (completeShape.child member).here
      have formedValue := formed_of_sound (soundShape.child member)
      obtain ⟨mode, inside, rfl, moded, valued⟩ := exists_of_lexemes_eq_append written
      have finishing (start : Span) : GivesAll (do
          let value ← Parser.expression bound
          let first ← finish start (.argument modifier (some value))
          if ← eat .comma then
            return first :: (← Parser.arguments bound)
          else
            return [first]) (inside ++ (more ++ ⟨.mark .rparen, span⟩ :: rest))
            (.node note (.argument modifier (some value)) :: shapes)
            (⟨.mark .rparen, span⟩ :: rest) := by
        rcases rest_of_items tail with ⟨rfl, rfl⟩ | ⟨others, span', more, rfl, items⟩
        · refine Meets.bind (completeValue.ended expression bound valued rfl) ?_
          rintro term after ⟨same, rfl⟩
          refine bind_finish fun _ => bind_eat_other (by simp [Token.first]) (.pure ?_)
          simp [same]
        · refine Meets.bind (completeValue.ended expression bound valued rfl) ?_
          rintro term after ⟨same, rfl⟩
          refine bind_finish fun _ => bind_eat_mark ?_
          refine Meets.bind (ih (fun other member => complete other (.tail _ member))
            (fun other member => sound other (.tail _ member)) arguments.2 bound items) ?_
          rintro terms after ⟨rfl, rfl⟩
          exact .pure (by simp [same])
      simp only [List.append_assoc]
      have noEnd : Token.first (mode ++ (inside ++ (more ++ ⟨.mark .rparen, span⟩ :: rest)))
          ≠ .mark .rparen := by
        cases modifier with
        | plain =>
          obtain rfl := eq_nil_of_lexemes moded
          exact first_ne formedValue expression _ valued rfl rfl
        | _ =>
          obtain ⟨_, _, rfl, -⟩ := exists_of_lexemes_eq_cons moded
          simp [Token.first]
      rw [Parser.arguments]
      refine bind_atMark ?_
      rw [if_neg (by simpa using noEnd)]
      refine bind_here fun start => bind_lexeme ?_
      cases modifier with
      | plain =>
        obtain rfl := eq_nil_of_lexemes moded
        have plain :
            Modifier.ofLexeme (Token.first (inside ++ (more ++ ⟨.mark .rparen, span⟩ :: rest)))
            = .plain := by
          obtain ⟨token, others, rfl, starts⟩ :=
            exists_first_of_expression formedValue expression valued
          simp only [List.cons_append, Token.first]
          unfold Modifier.ofLexeme
          split <;> simp_all [startsPrimary]
        rw [List.nil_append, plain]
        exact finishing start
      | _ =>
        obtain ⟨span, nothing, rfl, ended⟩ := exists_of_lexemes_eq_cons moded
        obtain rfl := eq_nil_of_lexemes ended
        exact bind_advance (by simp) (finishing start)
    | _ => cases arguments.1

/-- The parameters of a lambda are read up to the closing parenthesis. -/
theorem gives_lambdaParams (bare : shapes.all isBareParam = true)
    (bound : Nat) {used rest : List Token}
    (spelled : Token.lexemes used = separated true shapes) :
    GivesAll (lambdaParams bound) (used ++ ⟨.mark .rparen, span⟩ :: rest) shapes
      (⟨.mark .rparen, span⟩ :: rest) := by
  induction shapes generalizing bound used with
  | nil =>
    obtain rfl := eq_nil_of_lexemes spelled
    refine .bounded (by rfl) (fun bound => ?_) bound
    rw [lambdaParams]
    exact bind_atMark (.pure ⟨rfl, rfl⟩)
  | cons shape shapes ih =>
    refine .bounded (by rfl) (fun bound => ?_) bound
    rw [List.all_cons, Bool.and_eq_true] at bare
    obtain ⟨note, name, rfl⟩ := exists_name_of_isBareParam bare.1
    rw [separated_true] at spelled
    obtain ⟨span', more, rfl, tail⟩ := exists_of_lexemes_eq_cons spelled
    have first {after : List Token} : Gives lambdaParam (⟨.identifier name, span'⟩ :: after)
        (.node note (.param none name)) after :=
      bind_here fun _ => bind_name_identifier (.finish fun _ => ⟨rfl, rfl⟩)
    rw [lambdaParams, List.cons_append]
    refine bind_atMark ?_
    rw [if_neg (by simp [Token.first])]
    rcases rest_of_items tail with ⟨rfl, rfl⟩ | ⟨others, span'', more, rfl, items⟩
    · refine Meets.bind first ?_
      rintro term after ⟨same, rfl⟩
      exact bind_eat_other (by simp [Token.first]) (.pure (by simp [same]))
    · refine Meets.bind first ?_
      rintro term after ⟨same, rfl⟩
      refine bind_eat_mark (Meets.bind (ih bare.2 bound items) ?_)
      rintro terms after ⟨rfl, rfl⟩
      exact .pure (by simp [same])

section

variable {note : Unit} {form : Term.Form Unit}
  (sound : Term.All (IsSound spelling) (.node note form))
  (below : ∀ child ∈ Term.parts form, child.All Complete)

include sound below

/-- A receiver is read before what follows it. -/
theorem receiver_step (operand : isOperand postfixLevel (.node note form) = true)
    (bound further : Nat) (start : Span) {used rest : List Token}
    {result : SourceTerm → List Token → Prop}
    (spelled : Token.lexemes used = lexemes (.node note form))
    (known : ∀ bound term, term.shape = .node note form →
      Meets (postfixRest bound start term) rest result False True) :
    Meets (primary bound >>= postfixRest further start) (used ++ rest) result False True := by
  have formed := sound.here.formed
  cases form with
  | int value =>
    refine receiver_of_leaf spelled (fun span => ?_) known
    refine .bounded (by rfl) (fun bound => ?_) bound
    rw [primary]
    refine bind_lexeme (gives_literal (by simp) fun _ => ?_)
    simp [Int.toNat_of_nonneg formed.1]
  | str contents =>
    refine receiver_of_leaf spelled (fun span => ?_) known
    refine .bounded (by rfl) (fun bound => ?_) bound
    rw [primary]
    exact bind_lexeme (gives_literal (by simp) fun _ => rfl)
  | bool value =>
    refine receiver_of_leaf spelled (fun span => ?_) known
    refine .bounded (by rfl) (fun bound => ?_) bound
    rw [primary]
    cases value <;> exact bind_lexeme (gives_literal (by simp) fun _ => rfl)
  | null =>
    refine receiver_of_leaf spelled (fun span => ?_) known
    refine .bounded (by rfl) (fun bound => ?_) bound
    rw [primary]
    exact bind_lexeme (gives_literal (by simp) fun _ => rfl)
  | ident name =>
    refine receiver_of_leaf spelled (fun span => ?_) known
    refine .bounded (by rfl) (fun bound => ?_) bound
    rw [primary]
    exact bind_lexeme (gives_literal (by simp) fun _ => rfl)
  | paren inner =>
    obtain ⟨inner, rfl, expression⟩ := (Option.any_eq_true _ _).1 formed
    obtain ⟨span, used, rfl, opened⟩ := exists_of_lexemes_eq_cons spelled
    obtain ⟨inside, closing, rfl, written, closed⟩ := exists_of_lexemes_eq_append opened
    obtain ⟨span', nothing, rfl, ended⟩ := exists_of_lexemes_eq_cons closed
    obtain rfl := eq_nil_of_lexemes ended
    cases bound with
    | zero => exact .exhausted trivial
    | succ bound =>
      have complete := (below inner (by simp)).here
      have whole : Gives (primary (bound + 1)) (⟨.mark .lparen, span⟩ ::
          (inside ++ ⟨.mark .rparen, span'⟩ :: rest)) (.node note (.paren (some inner))) rest := by
        rw [primary]
        refine bind_lexeme (bind_here fun start => bind_advance (by simp) ?_)
        refine Meets.bind (complete.ended expression bound written rfl) ?_
        rintro term after ⟨rfl, rfl⟩
        exact bind_expect_mark (.finish fun _ => ⟨by simp, rfl⟩)
      simp only [List.cons_append, List.append_assoc, List.nil_append]
      refine Meets.bind whole ?_
      rintro term after ⟨same, rfl⟩
      exact known further term same
  | member receiver name conditional =>
    obtain ⟨receiver, rfl, tight⟩ := (Option.any_eq_true _ _).1 formed.1
    obtain ⟨inside, closing, rfl, written, closed⟩ := exists_of_lexemes_eq_append spelled
    obtain ⟨span, named, rfl, last⟩ := exists_of_lexemes_eq_cons closed
    obtain ⟨span', nothing, rfl, ended⟩ := exists_of_lexemes_eq_cons last
    obtain rfl := eq_nil_of_lexemes ended
    rw [List.append_assoc]
    refine (below receiver (by simp)).here.receiver tight bound further start _ _ _ written ?_
    intro bound term same
    cases bound with
    | zero => exact .exhausted trivial
    | succ bound =>
      rw [postfixRest]
      cases conditional <;>
        exact bind_lexeme (bind_advance (by simp) (bind_name_identifier
          (bind_finish fun _ => known bound _ (by simp [same]))))
  | invoke callee arguments =>
    obtain ⟨callee, rfl, tight⟩ := (Option.any_eq_true _ _).1 formed.1
    obtain ⟨inside, closing, rfl, written, closed⟩ := exists_of_lexemes_eq_append spelled
    obtain ⟨span, listed, rfl, opened⟩ := exists_of_lexemes_eq_cons closed
    obtain ⟨items, last, rfl, listed, lasts⟩ := exists_of_lexemes_eq_append opened
    obtain ⟨span', nothing, rfl, ended⟩ := exists_of_lexemes_eq_cons lasts
    obtain rfl := eq_nil_of_lexemes ended
    simp only [List.append_assoc, List.cons_append, List.nil_append]
    refine (below callee (by simp)).here.receiver tight bound further start _ _ _ written ?_
    intro bound term same
    cases bound with
    | zero => exact .exhausted trivial
    | succ bound =>
      rw [postfixRest]
      refine bind_lexeme (bind_advance (by simp) ?_)
      refine Meets.bind (gives_arguments (fun shape member => below shape (by simp [member]))
        (fun shape member => (Term.All.node_iff.1 sound).2 shape (by simp [member])) formed.2 bound
        listed) ?_
      rintro terms after ⟨rfl, rfl⟩
      exact bind_expect_mark (bind_finish fun _ => known bound _ (by simp [same]))
  | index receiver arguments =>
    obtain ⟨receiver, rfl, tight⟩ := (Option.any_eq_true _ _).1 formed.1
    obtain ⟨inside, closing, rfl, written, closed⟩ := exists_of_lexemes_eq_append spelled
    obtain ⟨span, listed, rfl, opened⟩ := exists_of_lexemes_eq_cons closed
    obtain ⟨items, last, rfl, listed, lasts⟩ := exists_of_lexemes_eq_append opened
    obtain ⟨span', nothing, rfl, ended⟩ := exists_of_lexemes_eq_cons lasts
    obtain rfl := eq_nil_of_lexemes ended
    simp only [List.append_assoc, List.cons_append, List.nil_append]
    refine (below receiver (by simp)).here.receiver tight bound further start _ _ _ written ?_
    intro bound term same
    cases bound with
    | zero => exact .exhausted trivial
    | succ bound =>
      rw [postfixRest]
      refine bind_lexeme (bind_advance (by simp) ?_)
      refine Meets.bind
        (gives_expressions (fun shape member => (below shape (by simp [member])).here)
        formed.2.2 formed.2.1 bound listed rfl (by simp [Token.first])) ?_
      rintro terms after ⟨rfl, rfl⟩
      exact bind_expect_mark (bind_finish fun _ => known bound _ (by simp [same]))
  | unary op inside =>
    have isPostfix : op.isPostfix = true := by cases op <;> first | rfl | cases operand
    obtain ⟨inside, rfl, tight⟩ := (Option.any_eq_true _ _).1 formed
    rw [if_pos isPostfix] at tight
    simp only [lexemes, isPostfix, if_true, one] at spelled
    obtain ⟨used, closing, rfl, written, closed⟩ := exists_of_lexemes_eq_append spelled
    obtain ⟨span, nothing, rfl, ended⟩ := exists_of_lexemes_eq_cons closed
    obtain rfl := eq_nil_of_lexemes ended
    rw [List.append_assoc]
    refine (below inside (by simp)).here.receiver tight bound further start _ _ _ written ?_
    intro bound term same
    cases bound with
    | zero => exact .exhausted trivial
    | succ bound =>
      rw [postfixRest]
      cases op with
      | postInc =>
        exact bind_lexeme (bind_advance (by simp [UnaryOp.mark])
          (bind_finish fun _ => known bound _ (by simp [same])))
      | postDec =>
        exact bind_lexeme (bind_advance (by simp [UnaryOp.mark])
          (bind_finish fun _ => known bound _ (by simp [same])))
      | _ => cases isPostfix
  | binary op left right => cases op <;> cases operand
  | _ => cases operand

/-- An operand of an operator in front is read. -/
theorem unary_step (operand : isOperand prefixLevel (.node note form) = true) (bound : Nat)
    {used rest : List Token} (spelled : Token.lexemes used = lexemes (.node note form))
    (weak : strength (Token.first rest) < prefixLevel) :
    Gives (unary bound) (used ++ rest) (.node note form) rest := by
  refine .bounded (by rfl) (fun bound => ?_) bound
  rw [unary]
  by_cases tight : isOperand postfixLevel (.node note form) = true
  · obtain ⟨first, more, same, starts⟩ := exists_startsPrimary (formed_of_sound sound) tight
    obtain ⟨span, others, rfl, -⟩ := exists_of_lexemes_eq_cons (spelled.trans same)
    refine bind_lexeme ?_
    have plain : UnaryOp.ofLeadingLexeme? first = none := by
      unfold UnaryOp.ofLeadingLexeme?
      split <;> first | rfl | cases starts
    simp only [List.cons_append, Token.first, plain]
    refine bind_here fun start => ?_
    refine receiver_step sound below tight bound bound start spelled fun bound term same => ?_
    exact postfixRest_stops (Nat.lt_of_lt_of_le weak (by decide)) ⟨same, rfl⟩
  · cases form with
    | unary op inner =>
      have isPrefix : op.isPostfix = false := by
        cases op <;> first | rfl | exact absurd rfl tight
      obtain ⟨inner, rfl, inside⟩ := (Option.any_eq_true _ _).1 sound.here.formed
      simp only [isPrefix, Bool.false_eq_true, if_false] at inside
      simp only [lexemes, isPrefix, Bool.false_eq_true, if_false, one] at spelled
      obtain ⟨span, used, rfl, written⟩ := exists_of_lexemes_eq_cons spelled
      refine bind_lexeme ?_
      have leading : UnaryOp.ofLeadingLexeme? (.mark op.mark) = some op :=
        UnaryOp.ofLeadingLexeme?_eq_some.2 ⟨rfl, isPrefix⟩
      simp only [List.cons_append, Token.first, leading]
      refine bind_here fun start => bind_advance (by simp) ?_
      refine Meets.bind ((below inner (by simp)).here.unary inside bound _ _ written weak) ?_
      rintro term after ⟨rfl, rfl⟩
      exact .finish fun _ => ⟨by simp, rfl⟩
    | binary op left right =>
      have loose := le_level operand
      cases op <;> exact absurd loose (by simp [level, Term.kind, BinaryOp.precedence, prefixLevel])
    | lambda params body parenthesized =>
      exact absurd (le_level operand) (by simp [level, Term.kind, prefixLevel])
    | assign op target value =>
      exact absurd (le_level operand) (by simp [level, Term.kind, prefixLevel])
    | _ => exact absurd operand tight

/-- An operation is read in the loop of its own precedence. -/
theorem binary_of_level_eq {level' : Nat} (low : 2 ≤ level') (high : level' < prefixLevel)
    (same : level (.node note form) = level')
    (bound : Nat) {used rest : List Token} {result : SourceTerm → List Token → Prop}
    (spelled : Token.lexemes used = lexemes (.node note form))
    (weak : strength (Token.first rest) ≤ level')
    (known : ∀ bound start term, term.shape = .node note form →
      Meets (binaryRest bound level' start term) rest result False True) :
    Meets (binary bound level') (used ++ rest) result False True := by
  subst same
  cases form with
  | binary op left right =>
    have formed := sound.here.formed
    have notCoalesce : op ≠ .coalesce := by
      rintro rfl
      exact absurd low (by simp [level, Term.kind, BinaryOp.precedence])
    simp only [IsFormed, if_neg notCoalesce] at formed
    obtain ⟨left, rfl, leftTight⟩ := (Option.any_eq_true _ _).1 formed.1
    obtain ⟨right, rfl, rightTight⟩ := (Option.any_eq_true _ _).1 formed.2
    obtain ⟨first, more, rfl, written, tail⟩ := exists_of_lexemes_eq_append spelled
    obtain ⟨span, second, rfl, others⟩ := exists_of_lexemes_eq_cons tail
    rw [List.append_assoc]
    refine (below left (by simp)).here.binary op.precedence low high leftTight bound _ _ _ written
      (Nat.le_of_eq (strength_mark op)) ?_
    intro bound start term same
    cases bound with
    | zero => exact .exhausted trivial
    | succ bound =>
      have found : BinaryOp.ofLexeme? (.mark op.mark) = some op := BinaryOp.ofLexeme?_eq_some.2 rfl
      rw [binaryRest]
      refine bind_lexeme ?_
      simp only [List.cons_append, Token.first, found, if_true]
      refine bind_advance (by simp) ?_
      have completeRight := (below right (by simp)).here
      refine Meets.bind (completeRight.operand (Nat.le_succ_of_le low) high rightTight bound others
        (Nat.lt_succ_of_le weak)) ?_
      rintro term' after ⟨same', rfl⟩
      exact bind_finish fun _ => known bound start _ (by simp [same, same'])
  | unary op operand => cases op <;> simp [level, Term.kind, UnaryOp.isPostfix, prefixLevel] at high
  | lambda params body parenthesized => simp [level, Term.kind] at low
  | assign op target value => simp [level, Term.kind] at low
  | _ => simp [level, Term.kind, prefixLevel] at high

omit sound below in
/-- An operand that holds together otherwise than its level wants does so more tightly. -/
theorem isOperand_succ {shape : Shape} (operand : isOperand least shape = true)
    (other : level shape ≠ least) : isOperand (least + 1) shape = true := by
  simp only [isOperand, Bool.and_eq_true, decide_eq_true_eq] at operand ⊢
  exact ⟨operand.1, by omega⟩

/-- An operand of a binary operator is read, by the functions for the levels from the wanted one to
its own. -/
theorem operand_step (gap : Nat) (gauge : least + gap = prefixLevel)
    (low : 2 ≤ least) (operand : isOperand least (.node note form) = true) (bound : Nat)
    {used rest : List Token} (spelled : Token.lexemes used = lexemes (.node note form))
    (weak : strength (first rest) < least) :
    Gives (binary bound least) (used ++ rest) (.node note form) rest := by
  induction gap generalizing least bound with
  | zero =>
    obtain rfl : least = prefixLevel := gauge
    cases bound with
    | zero => exact .exhausted trivial
    | succ bound =>
      rw [binary, if_pos (by decide)]
      exact unary_step sound below operand bound spelled weak
  | succ gap ih =>
    have high : least < prefixLevel := by omega
    by_cases same : level (.node note form) = least
    · exact binary_of_level_eq sound below low high same bound spelled (Nat.le_of_lt weak)
        fun bound start term same => binaryRest_stops weak ⟨same, rfl⟩
    · cases bound with
      | zero => exact .exhausted trivial
      | succ bound =>
        have notTightest : ¬BinaryOp.tightest < least := Nat.not_lt.2 (Nat.le_of_lt_succ high)
        rw [binary, if_neg notTightest]
        refine bind_here fun start => ?_
        refine Meets.bind
          (ih (by omega) (by omega) (isOperand_succ operand same) bound (by omega)) ?_
        rintro term after ⟨same, rfl⟩
        exact binaryRest_stops weak ⟨same, rfl⟩

/-- A left operand of a binary operator is read before the operators that follow it. -/
theorem binary_step (low : 2 ≤ least) (high : least < prefixLevel)
    (operand : isOperand least (.node note form) = true) (bound : Nat)
    {used rest : List Token} {result : SourceTerm → List Token → Prop}
    (spelled : Token.lexemes used = lexemes (.node note form))
    (weak : strength (first rest) ≤ least)
    (known : ∀ bound start term, term.shape = .node note form →
      Meets (binaryRest bound least start term) rest result False True) :
    Meets (binary bound least) (used ++ rest) result False True := by
  by_cases same : level (.node note form) = least
  · exact binary_of_level_eq sound below low high same bound spelled weak known
  · cases bound with
    | zero => exact .exhausted trivial
    | succ bound =>
      have notTightest : ¬BinaryOp.tightest < least := Nat.not_lt.2 (Nat.le_of_lt_succ high)
      rw [binary, if_neg notTightest]
      refine bind_here fun start => ?_
      refine Meets.bind (operand_step sound below (prefixLevel - (least + 1)) (by omega) (by omega)
        (isOperand_succ operand same) bound spelled (by omega)) ?_
      rintro term after ⟨same, rfl⟩
      exact known bound start term same

/-- A coalescing operation is read. -/
theorem coalesce_step (operand : isOperand BinaryOp.coalesce.precedence (.node note form) = true)
    (bound : Nat) {used rest : List Token}
    (spelled : Token.lexemes used = lexemes (.node note form))
    (outside : IsOutside (Token.first rest))
    (closed : endsOpen (.node note form) = true → AssignOp.ofLexeme? (Token.first rest) = none) :
    Gives (coalesce bound) (used ++ rest) (.node note form) rest := by
  refine .bounded (by rfl) (fun bound => ?_) bound
  rw [coalesce]
  refine bind_here fun start => ?_
  by_cases same : level (.node note form) = BinaryOp.coalesce.precedence
  · obtain ⟨left, right, rfl⟩ : ∃ left right, form = .binary .coalesce left right := by
      cases form with
      | binary op left right => cases op <;> first | exact ⟨left, right, rfl⟩ | cases same
      | unary op operand => cases op <;> cases same
      | _ => cases same
    have formed := sound.here.formed
    simp only [IsFormed, if_true] at formed
    obtain ⟨left, rfl, leftTight⟩ := (Option.any_eq_true _ _).1 formed.1
    obtain ⟨right, rfl, rightSort⟩ := (Option.any_eq_true _ _).1 formed.2
    obtain ⟨first, more, rfl, written, tail⟩ := exists_of_lexemes_eq_append spelled
    obtain ⟨span, second, rfl, others⟩ := exists_of_lexemes_eq_cons tail
    rw [List.append_assoc]
    have completeLeft := (below left (by simp)).here
    refine Meets.bind (completeLeft.operand (by decide) (by decide) leftTight bound written
      (show 1 < 2 from by decide)) ?_
    rintro term after ⟨rfl, rfl⟩
    have finishing {term' : SourceTerm} (same : term'.shape = right) :
        Gives (finish start (.binary .coalesce (some term) (some term'))) rest
          (.node note (.binary .coalesce (some term.shape) (some right))) rest :=
      .finish fun _ => ⟨by simp [same], rfl⟩
    have completeRight := (below right (by simp)).here
    have soundRight := (Term.All.node_iff.1 sound).2 right (by simp)
    rw [List.cons_append]
    refine bind_eat_mark (bind_tokens ?_)
    have spelledRight : Token.lexemes second = lexemes right := others
    rw [Token.atLambda_eq, lexemes_append, spelledRight]
    dsimp only
    by_cases isLambda : isLambda right = true
    · rw [opensLambda_of_isLambda soundRight.here.formed isLambda]
      refine Meets.bind (completeRight.lambda isLambda bound _ _ others outside fun swallowed =>
        closed ?_) ?_
      · exact (endsOpen_of_isLambda isLambda).trans swallowed
      · rintro term' after ⟨same, rfl⟩
        exact finishing same
    · rw [Bool.not_eq_true] at isLambda
      rw [isLambda, Bool.or_false] at rightSort
      have frontRight := front (formed_of_sound soundRight) (isExpression_of_isOperand rightSort)
      rw [frontRight.opensLambda_eq_false isLambda (noArrow_of_outside outside)]
      refine Meets.bind (completeRight.coalesce rightSort bound _ _ others outside closed) ?_
      rintro term' after ⟨same, rfl⟩
      exact finishing same
  · have noCoalesce : Token.first rest ≠ .mark .questionQuestion := by
      intro next
      have weak := outside.1
      rw [next] at weak
      cases weak
    refine Meets.bind (operand_step sound below 6 (by decide) (by decide)
      (isOperand_succ operand same) bound spelled (by rw [outside.1]; decide)) ?_
    rintro term after ⟨same, rfl⟩
    exact bind_eat_other noCoalesce (.pure ⟨same, rfl⟩)

omit sound below in
/-- The body of a lambda is read, whether it is a block or an expression, and the lambda with it. -/
theorem gives_lambdaBody {params : List SourceTerm} {parenthesized : Bool} {body : Shape}
    (complete : Complete body) (formed : body.All (IsFormed spelling))
    (sort : (isBlock body || isExpression body) = true) (bound : Nat) (start : Span)
    {used rest : List Token} (spelled : Token.lexemes used = lexemes body)
    (outside : IsOutside (first rest))
    (closed : (!isBlock body && swallows body) = true →
      AssignOp.ofLexeme? (first rest) = none) :
    Gives (do
      expect .arrow
      let body ← if ← atMark .lbrace then Parser.block bound else Parser.expression bound
      finish start (.lambda params (some body) parenthesized))
      (⟨.mark .arrow, span⟩ :: (used ++ rest))
      (.node note (.lambda (params.map Term.shape) (some body) parenthesized)) rest := by
  refine bind_expect_mark (bind_atMark ?_)
  dsimp only
  by_cases block : isBlock body = true
  · obtain ⟨more, same⟩ := exists_lbrace block
    obtain ⟨span', others, rfl, -⟩ := exists_of_lexemes_eq_cons (spelled.trans same)
    refine Meets.bind (complete.block block bound _ rest spelled) ?_
    rintro term after ⟨rfl, rfl⟩
    exact .finish fun _ => ⟨by simp, rfl⟩
  · simp only [Bool.not_eq_true] at block
    simp only [block, Bool.false_or, Bool.not_false, Bool.true_and] at sort closed
    have noBrace : first (used ++ rest) ≠ .mark .lbrace :=
      first_ne formed sort rest spelled rfl rfl
    rw [if_neg (by simpa using noBrace)]
    refine Meets.bind (complete.expression sort bound _ rest spelled outside closed) ?_
    rintro term after ⟨rfl, rfl⟩
    exact .finish fun _ => ⟨by simp, rfl⟩

/-- A lambda is read. -/
theorem lambda_step (isLambda : isLambda (.node note form) = true) (bound : Nat)
    {used rest : List Token} (spelled : Token.lexemes used = lexemes (.node note form))
    (outside : IsOutside (first rest))
    (closed : swallows (.node note form) = true → AssignOp.ofLexeme? (first rest) = none) :
    Gives (lambda bound) (used ++ rest) (.node note form) rest := by
  refine .bounded (by rfl) (fun bound => ?_) bound
  cases form with
  | lambda params body parenthesized =>
    obtain ⟨bare, single, isBody⟩ := sound.here.formed
    obtain ⟨body, rfl, sort⟩ := (Option.any_eq_true _ _).1 isBody
    rw [swallows_lambda] at closed
    have complete := (below body (by simp)).here
    have formed := formed_of_sound ((Term.All.node_iff.1 sound).2 body (by simp))
    rw [lambda]
    refine bind_here fun start => ?_
    cases parenthesized with
    | true =>
      simp only [lexemes, Bool.true_or, if_true, List.cons_append, List.append_assoc,
        List.nil_append] at spelled
      obtain ⟨span, used, rfl, opened⟩ := exists_of_lexemes_eq_cons spelled
      obtain ⟨items, used, rfl, listed, closing⟩ := exists_of_lexemes_eq_append opened
      obtain ⟨span', used, rfl, arrow⟩ := exists_of_lexemes_eq_cons closing
      obtain ⟨span'', used, rfl, written⟩ := exists_of_lexemes_eq_cons arrow
      simp only [List.cons_append, List.append_assoc]
      refine bind_eat_mark ?_
      refine Meets.bind (gives_lambdaParams bare bound listed) ?_
      rintro terms after ⟨rfl, rfl⟩
      refine bind_expect_mark ?_
      exact gives_lambdaBody complete formed sort bound start written outside closed
    | false =>
      obtain ⟨param, rfl⟩ := List.length_eq_one_iff.1 (single.resolve_left (by simp))
      obtain ⟨note', name, rfl⟩ :=
        exists_name_of_isBareParam (List.all_eq_true.1 bare param (.head _))
      obtain ⟨span, used, rfl, arrow⟩ := exists_of_lexemes_eq_cons spelled
      obtain ⟨span', used, rfl, written⟩ := exists_of_lexemes_eq_cons arrow
      simp only [List.cons_append]
      refine bind_eat_other (by simp [first]) ?_
      have param : Gives Parser.lambdaParam
          (⟨.identifier name, span⟩ :: ⟨.mark .arrow, span'⟩ :: (used ++ rest))
          (.node note' (.param none name)) (⟨.mark .arrow, span'⟩ :: (used ++ rest)) :=
        bind_here fun _ => bind_name_identifier (.finish fun _ => ⟨rfl, rfl⟩)
      refine Meets.bind param ?_
      rintro term after ⟨same, rfl⟩
      refine bind_pure ?_
      have params : [term].map Term.shape = [.node note' (.param none name)] := by simp [same]
      rw [← params]
      exact gives_lambdaBody complete formed sort bound start written outside closed
  | _ => cases isLambda

/-- An assignment is read, and what binds tighter. -/
theorem assignment_step (expression : isExpression (.node note form) = true)
    (plain : isLambda (.node note form) = false) (bound : Nat)
    {used rest : List Token} (spelled : Token.lexemes used = lexemes (.node note form))
    (outside : IsOutside (Token.first rest))
    (closed : swallows (.node note form) = true → AssignOp.ofLexeme? (Token.first rest) = none) :
    Gives (assignment bound) (used ++ rest) (.node note form) rest := by
  refine .bounded (by rfl) (fun bound => ?_) bound
  rw [assignment]
  refine bind_here fun start => ?_
  by_cases loose : level (.node note form) = 0
  · cases form with
    | assign op target value =>
      obtain ⟨isTarget, isValue⟩ := sound.here.formed
      obtain ⟨target, rfl, tight⟩ := (Option.any_eq_true _ _).1 isTarget
      obtain ⟨value, rfl, sort⟩ := (Option.any_eq_true _ _).1 isValue
      rw [Bool.and_eq_true, Bool.not_eq_true'] at tight
      obtain ⟨first, more, rfl, written, tail⟩ := exists_of_lexemes_eq_append spelled
      obtain ⟨span, second, rfl, others⟩ := exists_of_lexemes_eq_cons tail
      rw [List.append_assoc, List.cons_append]
      have completeTarget := (below target (by simp)).here
      refine Meets.bind (completeTarget.coalesce tight.1 bound _ _ written (isOutside_assign op)
        fun endsOpen => absurd (endsOpen.symm.trans tight.2) (by simp)) ?_
      rintro term after ⟨rfl, rfl⟩
      have found : AssignOp.ofLexeme? (.mark op.mark) = some op := AssignOp.ofLexeme?_eq_some.2 rfl
      refine bind_lexeme ?_
      simp only [Token.first, found]
      refine bind_advance (by simp) ?_
      have completeValue := (below value (by simp)).here
      refine Meets.bind (completeValue.expression sort bound _ _ others outside closed) ?_
      rintro term' after ⟨rfl, rfl⟩
      exact .finish fun _ => ⟨by simp, rfl⟩
    | binary op left right => cases op <;> cases loose
    | unary op operand => cases op <;> cases loose
    | lambda params body parenthesized => cases plain
    | _ => cases loose
  · have operand : isOperand BinaryOp.coalesce.precedence (.node note form) = true :=
      Bool.and_eq_true_iff.2 ⟨expression, decide_eq_true (Nat.pos_of_ne_zero loose)⟩
    have swallowed : swallows (.node note form) = true := by
      cases form with
      | lambda params body parenthesized => cases plain
      | assign op target value => exact absurd rfl loose
      | _ => rfl
    refine Meets.bind (coalesce_step sound below operand bound spelled outside
      fun _ => closed swallowed) ?_
    rintro term after ⟨same, rfl⟩
    refine bind_lexeme ?_
    simp only [closed swallowed]
    exact .pure ⟨same, rfl⟩

/-- An expression is read. -/
theorem expression_step (expression : isExpression (.node note form) = true) (bound : Nat)
    {used rest : List Token} (spelled : Token.lexemes used = lexemes (.node note form))
    (outside : IsOutside (first rest))
    (closed : swallows (.node note form) = true → AssignOp.ofLexeme? (first rest) = none) :
    Gives (Parser.expression bound) (used ++ rest) (.node note form) rest := by
  refine .bounded (by rfl) (fun bound => ?_) bound
  rw [Parser.expression]
  refine bind_tokens ?_
  rw [Token.atLambda_eq, lexemes_append, spelled]
  by_cases lambda : isLambda (.node note form) = true
  · rw [opensLambda_of_isLambda sound.here.formed lambda]
    exact lambda_step sound below lambda bound spelled outside closed
  · rw [Bool.not_eq_true] at lambda
    rw [(front (formed_of_sound sound) expression).opensLambda_eq_false lambda
      (noArrow_of_outside outside)]
    exact assignment_step sound below expression lambda bound spelled outside closed

end

end Parser

end Refactory
