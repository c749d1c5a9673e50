import Refactory.Proofs.Grammar.Front
import Refactory.Proofs.Layout.Shape
import Refactory.Proofs.Token.Scanning

/-!
# The layout of a shape is scanned as its lexemes

Every lexeme that the layout writes is separated from the next one by a blank or by the nature of
the two, with one exception: the sign of an arithmetic negation runs into the sign of another one,
or of a decrement, right after it (`Shape.IsDoubleNegation`). The layout of a formed shape without
such a pair is scanned as the lexemes of the shape (`Layout.scans_written`).
-/
namespace Refactory

variable {shape : Shape} {term : Option Shape} {note : Unit}

/-- A shape whose layout ends with the end of a line. -/
def Shape.endsLine (shape : Shape) : Bool := isMember shape && !isDeclaration shape

namespace Token

/-- What comes next goes on with no word and with no type. -/
def Apart (rest : List Char) : Prop :=
  ∀ char, rest.head? = some char → isWordRest char = false ∧ '=' ≠ char

theorem Apart.separates {rest : List Char} (apart : Apart rest) : Separates rest :=
  fun char next => (apart char next).1

/-- A character after which nothing goes on with what is before it. -/
theorem apart_cons {char : Char} (rest : List Char) (noWord : isWordRest char = false)
    (noType : '=' ≠ char) : Apart (char :: rest) := by
  rintro next same
  obtain rfl := Option.some.inj same
  exact ⟨noWord, noType⟩

/-- A blank or a delimiter comes next. -/
theorem apart_of_head {rest : List Char} (delimited : rest.head?.any
      [' ', '\n', '(', ')', '[', ']', ',', ';', '.', '?', '+', '-', '<', '>'].contains = true) :
    Apart rest := by
  intro char next
  rw [next, Option.any_some, List.contains_iff_mem] at delimited
  simp only [List.mem_cons, List.not_mem_nil, or_false] at delimited
  rcases delimited
    with rfl | rfl | rfl | rfl | rfl | rfl | rfl | rfl | rfl | rfl | rfl | rfl | rfl | rfl
  all_goals decide

namespace Scans

variable {rest : List Char} {lexemes : List Lexeme}

theorem space (scans : Scans rest lexemes) : Scans (" ".toList ++ rest) lexemes :=
  blank (by decide) scans

theorem newline (scans : Scans rest lexemes) : Scans ("\n".toList ++ rest) lexemes :=
  blank (by decide) scans

/-- The spaces in front of a line are passed over. -/
theorem indent (level : Nat) (scans : Scans rest lexemes) :
    Scans ((Layout.indent level).toList ++ rest) lexemes := by
  rw [Layout.indent, String.toList_ofList]
  generalize Layout.indentWidth * level = width
  induction width with
  | zero => exact scans
  | succ width ih => exact blank (by decide) ih

/-- A mark that is no start of a longer one is scanned as itself. -/
theorem whole (mark : Mark) (isWhole : mark.isWhole = true) (scans : Scans rest lexemes) :
    Scans (mark.spelling.toList ++ rest) (.mark mark :: lexemes) :=
  Scans.mark mark (fun char _ => Mark.fuses_eq_false_of_isWhole isWhole char) scans

/-- A mark between spaces is scanned as itself. -/
theorem spaced (mark : Mark) (scans : Scans rest lexemes) :
    Scans (" ".toList ++ (mark.spelling.toList ++ (" ".toList ++ rest)))
      (.mark mark :: lexemes) := by
  refine space (Scans.mark mark ?_ scans.space)
  rintro char next
  obtain rfl := Option.some.inj next
  exact Mark.fuses_eq_false (by decide)

/-- A keyword before a parenthesis is scanned as itself. -/
theorem header (word : Keyword) (scans : Scans rest lexemes) :
    Scans ((word.spelling ++ " (").toList ++ rest) (.keyword word :: .mark .lparen :: lexemes) := by
  rw [show " (" = " " ++ Mark.lparen.spelling from rfl]
  simp only [String.toList_append, List.append_assoc]
  exact Scans.keyword word (apart_cons _ (by decide) (by decide)).separates
    (scans.whole .lparen rfl).space

/-- A semicolon and the end of the line after it. -/
theorem terminator (scans : Scans rest lexemes) :
    Scans (";\n".toList ++ rest) (.mark .semi :: lexemes) := scans.newline.whole .semi rfl

end Scans

end Token

namespace Layout

open Shape Token

variable (level : Nat) {rest : List Char} {ls : List Lexeme}

/-- The layout of a shape is scanned as its lexemes, whatever comes after it. -/
def Spelled (shape : Shape) : Prop :=
  ∀ level rest ls, (endsLine shape = false → Apart rest) → Scans rest ls →
    Scans ((inner level shape).toList ++ rest) (lexemes shape ++ ls)

/-- A shape that is no line of its own, scanned as its lexemes. -/
structure Inline (shape : Shape) : Prop where
  /-- The layout is scanned as the lexemes. -/
  spelled : Spelled shape
  /-- The layout ends within a line. -/
  within : endsLine shape = false

theorem Inline.scans (inline : Inline shape) (apart : Apart rest)
    (scans : Scans rest ls) : Scans ((text level shape).toList ++ rest) (lexemes shape ++ ls) := by
  have scanned := inline.spelled level rest ls (fun _ => apart) scans
  have within := inline.within
  rcases shape with ⟨note, form⟩
  cases form with
  | block statements => cases within
  | _ => exact scanned

theorem scans_child (inline : ∀ shape ∈ term, Inline shape)
    (apart : Apart rest) (scans : Scans rest ls) :
    Scans ((child level term).toList ++ rest) (one term ++ ls) := by
  cases term with
  | none => exact Scans.keyword .null apart.separates scans
  | some shape => exact (inline shape rfl).scans level apart scans

theorem scans_spaced (inline : ∀ shape ∈ term, Inline shape)
    (apart : Apart rest) (scans : Scans rest ls) :
    Scans ((spaced level term).toList ++ rest) (Shape.optional term ++ ls) := by
  cases term with
  | none => exact scans
  | some shape =>
    simp only [spaced, String.toList_append, List.append_assoc]
    exact ((inline shape rfl).scans level apart scans).space

theorem scans_initial (inline : ∀ shape ∈ term, Inline shape)
    (apart : Apart rest) (scans : Scans rest ls) :
    Scans ((initial level term).toList ++ rest) (Shape.initial term ++ ls) := by
  cases term with
  | none => exact scans
  | some shape =>
    rw [initial, show " = " = " " ++ (Mark.eq.spelling ++ " ") from rfl]
    simp only [String.toList_append, List.append_assoc]
    exact ((inline shape rfl).scans level apart scans).spaced .eq

theorem scans_typed (inline : ∀ shape ∈ term, Inline shape) (scans : Scans rest ls) :
    Scans ((typed level term).toList ++ rest) (Shape.optional term ++ ls) := by
  cases term with
  | none => exact scans
  | some shape =>
    simp only [typed, String.toList_append, List.append_assoc]
    exact (inline shape rfl).scans level (apart_of_head rfl) scans.space

theorem apart_items {terms : List Shape} (apart : Apart rest) :
    Apart ((items level false terms).toList ++ rest) := by
  cases terms with
  | nil => exact apart
  | cons shape shapes =>
    simp only [items, separator, Bool.false_eq_true, if_false, String.toList_append,
      List.append_assoc]
    exact apart_of_head rfl

theorem apart_spaced (apart : Apart rest) :
    Apart ((spaced level term).toList ++ rest) := by
  cases term with
  | none => exact apart
  | some shape =>
    simp only [spaced, String.toList_append, List.append_assoc]
    exact apart_of_head rfl

theorem apart_initial (apart : Apart rest) :
    Apart ((initial level term).toList ++ rest) := by
  cases term with
  | none => exact apart
  | some shape =>
    simp only [initial, String.toList_append, List.append_assoc]
    exact apart_of_head rfl

theorem scans_items {terms : List Shape} {first : Bool} (inline : ∀ shape ∈ terms, Inline shape)
    (apart : Apart rest) (scans : Scans rest ls) :
    Scans ((items level first terms).toList ++ rest) (separated first terms ++ ls) := by
  induction terms generalizing first with
  | nil => exact scans
  | cons shape shapes ih =>
    have others := @ih false fun other member => inline other (.tail _ member)
    have whole := (inline shape (.head _)).scans level (apart_items level apart) others
    simp only [items, separated, String.toList_append, List.append_assoc]
    cases first with
    | true => exact whole
    | false => exact whole.space.whole .comma rfl

/-- A statement or method and the end of its line. -/
theorem scans_line (spelled : Spelled shape) (member : isMember shape = true)
    (scans : Scans rest ls) :
    Scans ((text level shape).toList ++ ((Layout.closing shape.kind).toList ++ rest))
      (lexemes shape ++ (Shape.closing shape ++ ls)) := by
  rcases shape with ⟨note, form⟩
  cases form with
  | localDecl type declarators =>
    have apart : Apart (";\n".toList ++ rest) := apart_of_head rfl
    exact spelled level _ _ (fun _ => apart) scans.terminator
  | block statements =>
    simp only [text, String.toList_append, List.append_assoc]
    exact spelled level _ _ (fun inside => by cases inside) scans.newline
  | _ =>
    first
    | exact spelled level _ _ (fun inside => by cases inside) scans
    | cases member

theorem scans_lines {shapes : List Shape} (spelled : ∀ shape ∈ shapes, Spelled shape)
    (members : ∀ shape ∈ shapes, isMember shape = true) (scans : Scans rest ls) :
    Scans ((lines level shapes).toList ++ rest) (Shape.lines shapes ++ ls) := by
  induction shapes with
  | nil => exact scans
  | cons shape shapes ih =>
    have others := ih (fun other member => spelled other (.tail _ member))
      fun other member => members other (.tail _ member)
    simp only [lines, Shape.lines, String.toList_append, List.append_assoc]
    exact (scans_line level (spelled shape (.head _)) (members shape (.head _)) others).indent level

theorem scans_unitMembers {shapes : List Shape} {wasMethod : Option Bool}
    (spelled : ∀ shape ∈ shapes, Spelled shape) (members : ∀ shape ∈ shapes, isMember shape = true)
    (scans : Scans rest ls) :
    Scans ((unitMembers level wasMethod shapes).toList ++ rest) (Shape.lines shapes ++ ls) := by
  induction shapes generalizing wasMethod with
  | nil => exact scans
  | cons shape shapes ih =>
    have others := @ih (some shape.kind.isMethod)
      (fun other member => spelled other (.tail _ member))
      fun other member => members other (.tail _ member)
    have line := scans_line level (spelled shape (.head _)) (members shape (.head _)) others
    have whole := line.indent level
    simp only [unitMembers, Shape.lines, String.toList_append, List.append_assoc]
    unfold gap
    split
    · exact whole
    · split
      · exact whole.newline
      · exact whole

/-- Statements between braces. -/
theorem scans_braces {shapes : List Shape} (spelled : ∀ shape ∈ shapes, Spelled shape)
    (members : ∀ shape ∈ shapes, isMember shape = true) (scans : Scans rest ls) :
    Scans ((braces level (lines (level + 1) shapes)).toList ++ rest)
      (.mark .lbrace :: (Shape.lines shapes ++ .mark .rbrace :: ls)) := by
  rw [braces, show "\x7b\n" = Mark.lbrace.spelling ++ "\n" from rfl]
  simp only [String.toList_append, List.append_assoc]
  have closed : Scans ("\x7d".toList ++ rest) (.mark .rbrace :: ls) := scans.whole .rbrace rfl
  exact (scans_lines _ spelled members (closed.indent level)).newline.whole .lbrace rfl

/-- A statement is a member of the block that it stands in. -/
theorem isMember_of_isStatement (statement : isStatement shape = true) :
    isMember shape = true := by
  rw [isMember, Bool.or_eq_true]
  exact .inl statement

/-- The body or the first branch of a statement, up to where an else may follow. -/
theorem scans_branch {body : Shape} (spelled : Spelled body) (statement : isStatement body = true)
    (scans : Scans rest ls) :
    Scans ((branch level (some body)).toList ++ rest) (Shape.line (some body) ++ ls) := by
  have asLine := scans_line (level + 1) spelled (isMember_of_isStatement statement) scans
  rw [Shape.line, List.append_assoc]
  rcases body with ⟨note, form⟩
  cases form with
  | block statements =>
    simp only [branch, String.toList_append, List.append_assoc]
    exact (spelled level _ _ (fun inside => by cases inside) scans).space
  | _ =>
    simp only [branch, String.toList_append, List.append_assoc]
    exact (asLine.indent (level + 1)).newline

/-- The body or the last branch of a statement, up to the end of its line. -/
theorem scans_embedded {body : Shape} (chained : Bool) (spelled : Spelled body)
    (statement : isStatement body = true) (scans : Scans rest ls) :
    Scans ((embedded level chained (some body)).toList ++ rest) (Shape.line (some body) ++ ls) := by
  have asLine level := scans_line level spelled (isMember_of_isStatement statement) scans
  rw [Shape.line, List.append_assoc]
  rcases body with ⟨note, form⟩
  cases form with
  | block statements =>
    simp only [embedded, String.toList_append, List.append_assoc]
    exact (spelled level _ _ (fun inside => by cases inside) scans.newline).space
  | ifStmt condition thenBranch elseBranch =>
    unfold embedded
    split
    · simp only [String.toList_append, List.append_assoc]
      exact (asLine level).space
    · simp only [String.toList_append, List.append_assoc]
      exact ((asLine (level + 1)).indent (level + 1)).newline
  | _ =>
    unfold embedded
    rw [if_neg (by simp [isConditional])]
    simp only [String.toList_append, List.append_assoc]
    exact ((asLine (level + 1)).indent (level + 1)).newline

/-- What comes before a body or branch goes on no word. -/
theorem apart_embedded {body : Shape} (chained : Bool) :
    Apart ((embedded level chained (some body)).toList ++ rest) := by
  unfold embedded
  split
  on_goal 3 => split
  all_goals
    simp only [String.toList_append, List.append_assoc]
    exact apart_of_head rfl

/-- The array suffixes of a type. -/
theorem scans_suffixes (rank : Nat) (scans : Scans rest ls) :
    Scans ((String.join (List.replicate rank "[]")).toList ++ rest)
      (Lexeme.brackets rank ++ ls) := by
  induction rank with
  | zero => exact scans
  | succ rank ih =>
    rw [List.replicate_succ, String.join_cons,
      show "[]" = Mark.lbracket.spelling ++ Mark.rbracket.spelling from rfl]
    simp only [String.toList_append, List.append_assoc]
    exact (ih.whole .rbracket rfl).whole .lbracket rfl

theorem apart_suffixes (rank : Nat) (apart : Apart rest) :
    Apart ((String.join (List.replicate rank "[]")).toList ++ rest) := by
  cases rank with
  | zero => exact apart
  | succ rank =>
    rw [List.replicate_succ, String.join_cons]
    simp only [String.toList_append, List.append_assoc]
    exact apart_of_head rfl

/-- A text that is scanned as something else first does not start with the sign of a mark. -/
theorem head_ne {sign : Char} {first : Lexeme} {more : List Lexeme}
    (plain : ∀ rest, Piece.atFront sign rest = Piece.mark sign rest)
    (short : ∃ mark ∈ Mark.all, mark.spelling.toList = [sign])
    (other : ∀ mark : Mark, first = .mark mark → mark.spelling.toList.head? ≠ some sign)
    (scans : Scans rest (first :: more)) : ∀ char, rest.head? = some char → sign ≠ char := by
  rintro char next rfl
  cases rest with
  | nil => cases next
  | cons head rest =>
    obtain rfl := Option.some.inj next
    obtain ⟨mark, rfl, starts⟩ := scans.exists_mark (plain rest) short
    exact other mark rfl starts

/-- Nothing but an equality sign starts with one. -/
theorem head_ne_eq {first : Lexeme} {more : List Lexeme}
    (other : ∀ mark : Mark, first = .mark mark → mark.spelling.toList.head? ≠ some '=')
    (scans : Scans rest (first :: more)) : ∀ char, rest.head? = some char → '=' ≠ char :=
  head_ne (fun _ => rfl) ⟨.eq, by decide, rfl⟩ other scans

/-- Nothing but a minus starts with one. -/
theorem head_ne_minus {first : Lexeme} {more : List Lexeme}
    (other : ∀ mark : Mark, first = .mark mark → mark.spelling.toList.head? ≠ some '-')
    (scans : Scans rest (first :: more)) : ∀ char, rest.head? = some char → '-' ≠ char :=
  head_ne (fun _ => rfl) ⟨.minus, by decide, rfl⟩ other scans

/-- What an operator in front may stand before is a tighter operand or another such operation. -/
theorem exists_unary_of_not_tight {operand : Shape} (loose : isOperand prefixLevel operand = true)
    (notTight : isOperand postfixLevel operand = false) :
    ∃ note op inside, op.isPostfix = false ∧ operand = .node note (.unary op inside) := by
  rcases operand with ⟨note, form⟩
  cases form with
  | unary op inside =>
    refine ⟨note, op, inside, ?_, rfl⟩
    cases op <;> first | rfl | cases notTight
  | binary op left right => cases op <;> cases loose
  | _ => cases loose <;> cases notTight

/-- A sign in front of an operand does not run into it, unless the two are a double negation. -/
theorem scans_leading {op : UnaryOp} {operand : Shape} (isPrefix : op.isPostfix = false)
    (formed : operand.All (IsFormed .scanned)) (loose : isOperand prefixLevel operand = true)
    (single : ¬IsDoubleNegation (.node () (.unary op (some operand))))
    (scans : Scans rest (lexemes operand ++ ls)) :
    Scans (op.mark.spelling.toList ++ rest) (.mark op.mark :: (lexemes operand ++ ls)) := by
  refine Scans.mark op.mark (fun char next => ?_) scans
  by_cases tight : isOperand postfixLevel operand = true
  · obtain ⟨first, more, spelled, starts⟩ := exists_startsPrimary formed tight
    rw [spelled] at scans
    have sign : ∀ mark : Mark, first = .mark mark → mark = .lparen := by
      rintro mark rfl
      cases mark <;> first | rfl | cases starts
    have noEq :=
      head_ne_eq (fun mark same => by simp [sign mark same, Mark.spelling]) scans char next
    have noMinus :=
      head_ne_minus (fun mark same => by simp [sign mark same, Mark.spelling]) scans char next
    cases op <;> first
      | exact Mark.fuses_eq_false_of_isWhole rfl char
      | exact Mark.fuses_eq_false_of_ne (by simp [UnaryOp.mark, noMinus]) noEq
  · obtain ⟨note, other, inside, isPrefix, rfl⟩ :=
      exists_unary_of_not_tight loose (Bool.eq_false_iff.2 tight)
    have spelled : lexemes (.node note (.unary other inside)) = .mark other.mark :: one inside := by
      simp [Shape.lexemes, isPrefix]
    rw [spelled] at scans
    have noEq := head_ne_eq (fun mark same => by cases same; cases other <;> decide) scans char next
    cases op with
    | not => exact Mark.fuses_eq_false_of_ne (by simp [UnaryOp.mark]) noEq
    | neg =>
      have noMinus := head_ne_minus (fun mark same => by
        cases same
        cases other <;> simp_all [IsDoubleNegation, isSigned, Term.kind, UnaryOp.isPostfix,
          UnaryOp.mark, Mark.spelling])
        scans char next
      exact Mark.fuses_eq_false_of_ne (by simp [UnaryOp.mark, noMinus]) noEq
    | _ => exact Mark.fuses_eq_false_of_isWhole rfl char

theorem isStatement_of_isBlock (block : Shape.isBlock shape = true) :
    isStatement shape = true := by
  rcases shape with ⟨note, form⟩
  cases form <;> first | rfl | cases block

/-- A block has no lexemes after it that would end its line. -/
theorem line_of_isBlock (block : Shape.isBlock shape = true) :
    Shape.line (some shape) = one (some shape) := by
  rcases shape with ⟨note, form⟩
  cases form <;> first | exact List.append_nil _ | cases block

theorem all_of_any {test : Shape → Bool} {position : Option Shape}
    (any : position.any test = true) :
    position.all test = true := by
  cases position with
  | none => rfl
  | some shape => exact any

theorem any_of_any {test other : Shape → Bool} {position : Option Shape}
    (weaker : ∀ shape, test shape = true → other shape = true) (any : position.any test = true) :
    position.any other = true := by
  cases position with
  | none => cases any
  | some shape => exact weaker shape any

/-- Whether a shape stands within a line wherever it stands. -/
@[simp]
def standsWithin (shape : Shape) : Bool :=
  isExpression shape || isType shape || isTypedParam shape || isBareParam shape ||
    isDeclarator shape || isArgument shape || isDeclaration shape

theorem endsLine_eq_false (within : standsWithin shape = true) :
    endsLine shape = false := by
  rcases shape with ⟨note, form⟩
  cases form <;> first | rfl | cases within

theorem within_of_isOperand {least : Nat} (operand : isOperand least shape = true) :
    standsWithin shape = true := by
  simp [isExpression_of_isOperand operand]

/-- A type starts with its name. -/
theorem exists_identifier_of_isType (type : isType shape = true) :
    ∃ name more, Shape.lexemes shape = .identifier name :: more := by
  rcases shape with ⟨note, form⟩
  cases form with
  | typeRef name arguments rank => exact ⟨name, _, rfl⟩
  | _ => cases type

/-- The expressions after the second semicolon of a counted loop. -/
theorem scans_steps {terms : List Shape} (inline : ∀ shape ∈ terms, Inline shape)
    (apart : Apart rest) (scans : Scans rest ls) :
    Scans ((if terms.isEmpty then "" else " " ++ items level true terms).toList ++ rest)
      (separated true terms ++ ls) := by
  cases terms with
  | nil => exact scans
  | cons term terms =>
    simp only [List.isEmpty_cons, Bool.false_eq_true, if_false, String.toList_append,
      List.append_assoc]
    exact (scans_items level inline apart scans).space

/-- What stands before the first semicolon of a counted loop. -/
theorem scans_opening {declaration : Option Shape} {initializers : List Shape}
    (declarations : ∀ shape ∈ declaration, Inline shape)
    (isDeclaration : declaration.all isDeclaration = true)
    (inline : ∀ shape ∈ initializers, Inline shape) (apart : Apart rest) (scans : Scans rest ls) :
    Scans ((opening level (items level true initializers) declaration).toList ++ rest)
      (Shape.opening (separated true initializers) declaration ++ ls) := by
  cases declaration with
  | none => exact scans_items level inline apart scans
  | some shape =>
    have written := (declarations shape rfl).scans level apart scans
    rcases shape with ⟨note, form⟩
    cases form with
    | localDecl type declarators => exact written
    | _ => cases isDeclaration

/-- The kinds that are parts of others and neither expressions nor lines. -/
def isPart : Term.Form Unit → Bool
  | .param _ _ | .typeRef _ _ _ | .declarator _ _ | .argument _ _ => true
  | _ => false

/-- The kinds that are written on lines of their own. -/
def isLine : Term.Form Unit → Bool
  | .unit _ => true
  | form => form.isStatement || form.isMethod

section

variable {form : Term.Form Unit} {test : Shape → Bool}
  (spelled : ∀ child ∈ Term.parts form, Spelled child)

include spelled

/-- A child in a position for what stands within a line. -/
theorem inline_child {position : Option Shape} (passes : position.all test = true)
    (inside : ∀ child ∈ position, child ∈ Term.parts form ∧
      (test child = true → standsWithin child = true)) :
    ∀ child ∈ position, Inline child := by
  rintro child rfl
  obtain ⟨isPart, within⟩ := inside child rfl
  exact ⟨spelled child isPart, endsLine_eq_false (within passes)⟩

/-- The children in a position for what stands within a line. -/
theorem inline_children {position : List Shape} (passes : position.all test = true)
    (inside : ∀ child ∈ position, child ∈ Term.parts form ∧
      (test child = true → standsWithin child = true)) :
    ∀ child ∈ position, Inline child := fun child member =>
  have ⟨isPart, within⟩ := inside child member
  ⟨spelled child isPart, endsLine_eq_false (within (List.all_eq_true.1 passes child member))⟩

end

/-- A type, parameter, declared variable or argument is scanned as its lexemes when its children
are. -/
theorem spelled_of_part {form : Term.Form Unit} (here : IsFormed .scanned (.node note form))
    (sort : isPart form = true)
    (spelled : ∀ child ∈ Term.parts form, Spelled child) : Spelled (.node note form) := by
  intro level rest ls apart scans
  cases form
  all_goals first | (cases sort; done) | skip
  all_goals simp only [inner, text, Shape.lexemes, String.toList_append, List.append_assoc,
    List.cons_append, List.nil_append]
  case param type name =>
    have types := inline_child spelled here.1 (by simp +contextual)
    exact scans_typed level types (Scans.name here.2 (apart rfl).separates scans)
  case typeRef name arguments rank =>
    have suffixes := scans_suffixes rank scans
    have next := apart_suffixes rank (apart rfl)
    have inside := inline_children spelled here.2.1 (by simp +contextual)
    have closed := Scans.mark .gt (fun char same =>
      Mark.fuses_eq_false_of_ne (by simp) (next char same).2) suffixes
    cases arguments with
    | nil => exact Scans.name here.1 next.separates suffixes
    | cons argument arguments =>
      obtain ⟨first, more, written⟩ :=
        exists_identifier_of_isType (List.all_eq_true.1 here.2.1 argument (.head _))
      have items := @scans_items level _ _ _ true inside (apart_of_head rfl) closed
      simp only [separated, if_true, List.nil_append, List.append_assoc, written,
        List.cons_append] at items
      have noEq := head_ne_eq (by simp) items
      have opened := Scans.mark .lt (fun char same =>
        Mark.fuses_eq_false_of_ne (by simp) (noEq char same)) items
      simp only [List.isEmpty_cons, Bool.false_eq_true, if_false, String.toList_append,
        List.append_assoc, bracketed, List.cons_append, List.nil_append, written]
      exact Scans.name here.1 (apart_of_head rfl).separates opened
  case declarator name value =>
    have values := inline_child spelled here.2 (by simp +contextual)
    exact Scans.name here.1 (apart_initial level (apart rfl)).separates
      (scans_initial level values (apart rfl) scans)
  case argument modifier value =>
    have values := inline_child spelled (all_of_any here) (by simp +contextual)
    have value := scans_child level values (apart rfl) scans
    cases modifier
    · exact value
    · exact Scans.keyword .ref (apart_of_head rfl).separates value.space
    · exact Scans.keyword .out (apart_of_head rfl).separates value.space
    · exact Scans.keyword .in (apart_of_head rfl).separates value.space

/-- An expression is scanned as its lexemes when its children are. -/
theorem spelled_of_expression {form : Term.Form Unit} (here : IsFormed .scanned (.node note form))
    (sort : form.isExpression = true)
    (below : ∀ child ∈ Term.parts form, child.All (IsFormed .scanned))
    (noDouble : ¬IsDoubleNegation (.node note form))
    (spelled : ∀ child ∈ Term.parts form, Spelled child) : Spelled (.node note form) := by
  intro level rest ls apart scans
  cases form
  all_goals first | (cases sort; done) | skip
  all_goals simp only [inner, text, Shape.lexemes, String.toList_append, List.append_assoc,
    List.cons_append, List.nil_append]
  case int value =>
    obtain ⟨value, rfl⟩ := Int.eq_ofNat_of_zero_le here.1
    exact Scans.integer (Int.ofNat_le.1 here.2) (apart rfl).separates scans
  case str contents => exact Scans.text here scans
  case bool value =>
    cases value
    · exact Scans.keyword .false (apart rfl).separates scans
    · exact Scans.keyword .true (apart rfl).separates scans
  case null => exact Scans.keyword .null (apart rfl).separates scans
  case ident name => exact Scans.name here (apart rfl).separates scans
  case member receiver name conditional =>
    have receivers := inline_child spelled (all_of_any here.1) fun _ here =>
      ⟨by simp_all, within_of_isOperand⟩
    cases conditional
    · exact scans_child level receivers (apart_of_head rfl)
        (Scans.whole .dot rfl (Scans.name here.2 (apart rfl).separates scans))
    · exact scans_child level receivers (apart_of_head rfl)
        (Scans.whole .questionDot rfl (Scans.name here.2 (apart rfl).separates scans))
  case invoke callee arguments =>
    have callees := inline_child spelled (all_of_any here.1) fun _ here =>
      ⟨by simp_all, within_of_isOperand⟩
    have values := inline_children spelled here.2 (by simp +contextual)
    exact scans_child level callees (apart_of_head rfl) (Scans.whole .lparen rfl
      (scans_items level values (apart_of_head rfl) (Scans.whole .rparen rfl scans)))
  case index receiver arguments =>
    have receivers := inline_child spelled (all_of_any here.1) fun _ here =>
      ⟨by simp_all, within_of_isOperand⟩
    have values := inline_children spelled here.2.2 (by simp +contextual)
    exact scans_child level receivers (apart_of_head rfl) (Scans.whole .lbracket rfl
      (scans_items level values (apart_of_head rfl) (Scans.whole .rbracket rfl scans)))
  case lambda params body parenthesized =>
    obtain ⟨areParams, -, isBody⟩ := here
    have names := inline_children spelled areParams (by simp +contextual)
    obtain ⟨body, rfl, -⟩ := (Option.any_eq_true _ _).1 isBody
    have written := spelled body (by simp) level rest ls (fun _ => apart rfl) scans
    rw [show " => " = " " ++ (Mark.arrow.spelling ++ " ") from rfl, lambdaBody_eq]
    simp only [String.toList_append, List.append_assoc]
    have arrow := Scans.spaced .arrow written
    split
    · simp only [String.toList_append, List.append_assoc, List.cons_append, List.nil_append]
      exact Scans.whole .lparen rfl (scans_items level names (apart_of_head rfl)
        (Scans.whole .rparen rfl arrow))
    · exact scans_items level names (apart_of_head rfl) arrow
  case binary op left right =>
    have sides : left.all isExpression = true ∧ right.all isExpression = true := by
      simp only [IsFormed] at here
      split at here
      · obtain ⟨lefts, rights⟩ := here
        refine ⟨all_of_any (any_of_any (fun _ => isExpression_of_isOperand) lefts), ?_⟩
        refine all_of_any (any_of_any (fun shape passes => ?_) rights)
        rcases Bool.or_eq_true_iff.1 passes with operand | lambda
        · exact isExpression_of_isOperand operand
        · exact isExpression_of_isLambda lambda
      · exact ⟨all_of_any (any_of_any (fun _ => isExpression_of_isOperand) here.1),
          all_of_any (any_of_any (fun _ => isExpression_of_isOperand) here.2)⟩
    have lefts := inline_child spelled sides.1 (by simp +contextual)
    have rights := inline_child spelled sides.2 (by simp +contextual)
    rw [op.symbol_eq]
    exact scans_child level lefts (apart_of_head rfl)
      (Scans.spaced op.mark (scans_child level rights (apart rfl) scans))
  case unary op operand =>
    have operands := inline_child spelled (all_of_any here) fun _ here =>
      ⟨by simp_all, within_of_isOperand⟩
    obtain ⟨operand, rfl, loose⟩ := (Option.any_eq_true _ _).1 here
    rw [op.symbol_eq]
    by_cases isPostfix : op.isPostfix = true
    · have isWhole : op.mark.isWhole = true := by cases op <;> first | rfl | cases isPostfix
      have next : Apart (op.mark.spelling.toList ++ rest) := by
        cases op <;> first | exact apart_of_head rfl | cases isPostfix
      simp only [isPostfix, if_true, String.toList_append, List.append_assoc, List.cons_append,
        List.nil_append]
      exact scans_child level operands next (Scans.whole op.mark isWhole scans)
    · rw [if_neg isPostfix] at loose ⊢
      rw [if_neg isPostfix, String.toList_append, List.append_assoc]
      exact scans_leading (Bool.eq_false_iff.2 isPostfix) (below operand (by simp)) loose noDouble
        (scans_child level operands (apart rfl) scans)
  case assign op target value =>
    have targets := inline_child spelled (all_of_any here.1) fun _ here =>
      ⟨by simp_all, fun passes => within_of_isOperand (Bool.and_eq_true_iff.1 passes).1⟩
    have values := inline_child spelled (all_of_any here.2) (by simp +contextual)
    rw [op.symbol_eq]
    exact scans_child level targets (apart_of_head rfl)
      (Scans.spaced op.mark (scans_child level values (apart rfl) scans))
  case paren inner =>
    have inners := inline_child spelled (all_of_any here) (by simp +contextual)
    exact Scans.whole .lparen rfl (scans_child level inners (apart_of_head rfl)
      (Scans.whole .rparen rfl scans))

/-- A unit, method or statement is scanned as its lexemes when its children are. -/
theorem spelled_of_line {form : Term.Form Unit} (here : IsFormed .scanned (.node note form))
    (sort : isLine form = true)
    (spelled : ∀ child ∈ Term.parts form, Spelled child) : Spelled (.node note form) := by
  intro level rest ls apart scans
  cases form
  all_goals first | (cases sort; done) | skip
  all_goals simp only [inner, text, Shape.lexemes, String.toList_append, List.append_assoc,
    List.cons_append, List.nil_append]
  case unit members =>
    exact scans_unitMembers level (fun shape inside => spelled shape (by simpa using inside))
      (List.all_eq_true.1 here) scans
  case method result name params body =>
    obtain ⟨isType, isName, areParams, isBlock⟩ := here
    have results := inline_child spelled (all_of_any isType) (by simp +contextual)
    have typed := inline_children spelled areParams (by simp +contextual)
    obtain ⟨block, rfl, isBlock⟩ := (Option.any_eq_true _ _).1 isBlock
    have body :=
      scans_embedded level false (spelled block (by simp)) (isStatement_of_isBlock isBlock) scans
    rw [line_of_isBlock isBlock] at body
    exact scans_child level results (apart_of_head rfl) (Scans.space (Scans.name isName
      (apart_of_head rfl).separates (Scans.whole .lparen rfl (scans_items level typed
      (apart_of_head rfl) (Scans.whole .rparen rfl body)))))
  case block statements =>
    exact scans_braces level (fun shape inside => spelled shape (by simpa using inside))
      (fun shape inside => isMember_of_isStatement (List.all_eq_true.1 here shape inside)) scans
  case localDecl type declarators =>
    have types := inline_child spelled (all_of_any here.1) (by simp +contextual)
    have declared := inline_children spelled here.2.2 (by simp +contextual)
    exact scans_child level types (apart_of_head rfl)
      (Scans.space (scans_items level declared (apart rfl) scans))
  case exprStmt expression =>
    have expressions := inline_child spelled (all_of_any here) (by simp +contextual)
    exact scans_child level expressions (apart_of_head rfl) scans.terminator
  case returnStmt value =>
    have values := inline_child spelled here (by simp +contextual)
    have next : Apart (";\n".toList ++ rest) := apart_of_head rfl
    exact Scans.keyword .return (apart_spaced level next).separates
      (scans_spaced level values next scans.terminator)
  case ifStmt condition thenBranch elseBranch =>
    obtain ⟨isCondition, isThen, isElse, -⟩ := here
    have conditions := inline_child spelled (all_of_any isCondition) (by simp +contextual)
    obtain ⟨body, rfl, statement⟩ := (Option.any_eq_true _ _).1 isThen
    refine Scans.header .if (scans_child level conditions (apart_of_head rfl)
      (Scans.whole .rparen rfl (scans_branch level (spelled body (by simp)) statement ?_)))
    cases elseBranch with
    | none =>
      by_cases block : isBlock (some body) = true
      · simp only [block, Option.isNone_none, if_true]
        exact scans.newline
      · simp only [block, Option.isNone_none, if_true]
        exact scans
    | some other =>
      have chained := scans_embedded level true (spelled other (by simp)) isElse scans
      have reserved := Scans.keyword .else (apart_embedded level true).separates chained
      simp only [Option.isNone_some, Bool.false_eq_true, if_false]
      split
      · rw [show " else" = " " ++ Keyword.else.spelling from rfl]
        simp only [String.toList_append, List.append_assoc]
        exact reserved.space
      · simp only [String.toList_append, List.append_assoc]
        exact reserved.indent level
  case whileLoop condition body =>
    have conditions := inline_child spelled (all_of_any here.1) (by simp +contextual)
    obtain ⟨body, rfl, statement⟩ := (Option.any_eq_true _ _).1 here.2
    exact Scans.header .while (scans_child level conditions (apart_of_head rfl)
      (Scans.whole .rparen rfl
      (scans_embedded level false (spelled body (by simp)) statement scans)))
  case forLoop declaration initializers condition incrementors body =>
    obtain ⟨isDeclaration, -, areInitial, isCondition, areSteps, isBody⟩ := here
    have declarations := inline_child spelled isDeclaration (by simp +contextual)
    have initial := inline_children spelled areInitial (by simp +contextual)
    have conditions := inline_child spelled isCondition (by simp +contextual)
    have steps := inline_children spelled areSteps (by simp +contextual)
    obtain ⟨body, rfl, statement⟩ := (Option.any_eq_true _ _).1 isBody
    have closed := Scans.whole .rparen rfl
      (scans_embedded level false (spelled body (by simp)) statement scans)
    have stepped := scans_steps level steps (apart_of_head rfl) closed
    have conditioned := scans_spaced level conditions (apart_of_head rfl)
      (Scans.whole .semi rfl stepped)
    exact Scans.header .for (scans_opening level declarations isDeclaration initial
      (apart_of_head rfl) (Scans.whole .semi rfl conditioned))
  case forEach type name collection body =>
    obtain ⟨isType, isName, isCollection, isBody⟩ := here
    have types := inline_child spelled (all_of_any isType) (by simp +contextual)
    have collections := inline_child spelled (all_of_any isCollection) (by simp +contextual)
    obtain ⟨body, rfl, statement⟩ := (Option.any_eq_true _ _).1 isBody
    have closed := Scans.whole .rparen rfl
      (scans_embedded level false (spelled body (by simp)) statement scans)
    have collection := scans_child level collections (apart_of_head rfl) closed
    rw [show " in " = " " ++ (Keyword.in.spelling ++ " ") from rfl]
    simp only [String.toList_append, List.append_assoc]
    exact Scans.header .forEach (scans_child level types (apart_of_head rfl)
      (Scans.space (Scans.name isName (apart_of_head rfl).separates
        (Scans.space (Scans.keyword .in (apart_of_head rfl).separates
          collection.space)))))

/-- The layout of a formed shape without double negations is scanned as its lexemes. -/
theorem spelled (formed : shape.All (IsFormed .scanned))
    (single : shape.All (¬IsDoubleNegation ·)) : Spelled shape := by
  induction shape using Term.induction with
  | step note form ih =>
    obtain ⟨here, below⟩ := Term.All.node_iff.1 formed
    obtain ⟨noDouble, singleBelow⟩ := Term.All.node_iff.1 single
    have children : ∀ child ∈ Term.parts form, Spelled child := fun child member =>
      ih child member (below child member) (singleBelow child member)
    by_cases expression : form.isExpression = true
    · exact spelled_of_expression here expression below noDouble children
    · by_cases part : isPart form = true
      · exact spelled_of_part here part children
      · exact spelled_of_line here
          (by cases form <;> first | rfl | exact absurd rfl part | exact absurd rfl expression)
          children

/-- The written form of a formed unit without double negations is scanned as its lexemes. -/
theorem exists_scanFrom_written {members : List Shape}
    (formed : Term.All (IsFormed .scanned) (.node note (.unit members)))
    (single : Term.All (¬IsDoubleNegation ·) (.node note (.unit members))) :
    ∃ tokens, Token.scanFrom 0 0 (Term.written (.node note (.unit members))).toList = .ok tokens ∧
      Token.lexemes tokens = Shape.lexemes (.node note (.unit members)) ++ [Lexeme.endOfInput] := by
  have scanned := spelled formed single 0 [] [.endOfInput] (fun _ _ next => by cases next) Scans.nil
  rw [List.append_nil] at scanned
  exact scanned 0

end Layout

end Refactory
