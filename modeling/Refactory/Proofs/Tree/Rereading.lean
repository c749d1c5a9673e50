import Mathlib
import Refactory.Command
import Refactory.Proofs.Layout.Rereading
import Refactory.Proofs.Tree.Forms
import Refactory.Proofs.Tree.Storing

/-!
# Reading the text of a tree

The text of the tree of a source text is a source text again, and it has the shape of the tree
unless a negation in the tree stands right before another one or before a decrement
(`Tree.exists_parse_text`). Even then it is laid out as it stands, so that laying out a text twice
gives what laying it out once gives (`Command.print_print`). Both need that spans reach to the end
of the source text and of the text of its tree, since a name behind their reach is lost.
-/
namespace Refactory

variable {source : String}

namespace Shape

/-- A statement that adds two names. -/
def sum (left right : String) : Shape :=
  let name (text : String) : Option Shape := some (.node () (.ident text))
  .node () (.unit [.node () (.exprStmt (some (.node () (.binary .add (name left) (name right)))))])

theorem written_sum (left right : String) :
    (sum left right).written = left ++ (" + " ++ right ++ ";\n") := by
  simp [sum, Term.written, Layout.text, Layout.unitMembers, Layout.gap, Layout.indent,
    Layout.child, Layout.closing, Term.kind, BinaryOp.symbol, Kind.isStatement, Kind.isMethod,
    String.append_assoc]

theorem all_not_isDoubleNegation_sum (left right : String) :
    (sum left right).All (¬IsDoubleNegation ·) := by
  simp [sum, Term.All.node_iff, Term.parts, IsDoubleNegation]

end Shape

namespace Tree

open Term

/-- A node that negates a negation or a decrement. -/
def IsDoubleNegation (tree : Tree) (ref : Ref) : Prop :=
  ∃ operand inner, tree.kind ref = .unary .neg operand ∧
    (tree.kind operand = .unary .neg inner ∨ tree.kind operand = .unary .preDec inner)

section

variable {tree : Tree} {term : Outline}

/-- A node that is shown is a negation or a decrement when the term is one. -/
theorem Shows.isSigned_iff (shows : tree.Shows term) : Shape.isSigned term.shape = true ↔
    ∃ inner, tree.kind term.ref = .unary .neg inner ∨
    tree.kind term.ref = .unary .preDec inner := by
  have depicts : tree.Depicts (tree.kind term.ref) term.kind := shows.depicts
  rcases term with ⟨place, form⟩
  generalize tree.kind (Term.node place form).ref = kind at depicts ⊢
  rw [Term.kind] at depicts
  cases kind
  case unary op _ =>
    obtain ⟨operand, rfl, -⟩ := depicts.unary
    cases op <;> simp [Shape.isSigned, Term.kind]
  all_goals
    obtain ⟨contents, rfl, -⟩ := depicts.exists_contents
    simp [Shape.isSigned, Term.kind, Kind.withSlots]

/-- A double negation in a term that stands is one in the tree. -/
theorem Shows.isDoubleNegation_iff (shows : tree.Shows term)
    (below : ∀ child ∈ term.children, tree.Shows child) :
    Shape.IsDoubleNegation term.shape ↔ tree.IsDoubleNegation term.ref := by
  have depicts : tree.Depicts (tree.kind term.ref) term.kind := shows.depicts
  rcases term with ⟨place, form⟩
  have signed : ∀ operand, Shape.IsDoubleNegation (Term.shape (.node place (.unary .neg operand)))
      ↔ ∃ child ∈ operand, Shape.isSigned child.shape = true := by
    intro operand
    cases operand <;> simp [Shape.IsDoubleNegation]
  rw [IsDoubleNegation]
  generalize tree.kind (Term.node place form).ref = kind at depicts ⊢
  rw [Term.kind] at depicts
  cases kind
  case unary op ref =>
    obtain ⟨operand, rfl, same⟩ := depicts.unary
    cases op
    case neg =>
      rw [signed]
      constructor
      · rintro ⟨child, rfl, isSigned⟩
        obtain ⟨inner, sign⟩ :=
          (below child (by simp [Term.children, Term.kind])).isSigned_iff.1 isSigned
        exact ⟨ref, inner, rfl, same ▸ sign⟩
      · rintro ⟨_, inner, ⟨⟩, sign⟩
        cases operand with
        | none =>
          obtain rfl : none = ref := same
          rcases sign with sign | sign <;> cases sign
        | some child =>
          obtain rfl : child.ref = ref := same
          exact ⟨child, rfl,
            (below child (by simp [Term.children, Term.kind])).isSigned_iff.2 ⟨inner, sign⟩⟩
    all_goals simp [Shape.IsDoubleNegation]
  all_goals
    obtain ⟨contents, rfl, -⟩ := depicts.exists_contents
    simp [Shape.IsDoubleNegation, Kind.withSlots]

/-- A program has no double negation when its shape has none. -/
theorem IsProgram.all_not_isDoubleNegation_iff (program : tree.IsProgram term) :
    term.shape.All (¬Shape.IsDoubleNegation ·) ↔
    ∀ ref ∈ tree.attached, ¬tree.IsDoubleNegation ref := by
  have each : ∀ part ∈ term.subterms,
      Shape.IsDoubleNegation part.shape ↔ tree.IsDoubleNegation part.ref := fun part member =>
    (program.stands.shows member).isDoubleNegation_iff fun child inside =>
      program.stands.shows (subterms_child member inside)
  rw [Term.shape, all_map_iff, all_iff_subterms, program.attached]
  constructor
  · intro none ref member
    obtain ⟨part, inside, rfl⟩ := mem_refs.1 member
    exact fun double => none part inside ((each part inside).2 double)
  · intro none part inside double
    exact none part.ref (mem_refs.2 ⟨part, inside, rfl⟩) ((each part inside).1 double)

end

/-- The tree of a source text has the shape of a term that was read, and its text. -/
theorem exists_read {clock : Nat} {tree : Tree}
    (parsed : Tree.parse clock source = .ok tree) : ∃ term, SourceTerm.parse source = .ok term ∧
      tree.shape = term.shape ∧ Command.text tree = term.shape.written := by
  obtain ⟨term, outline, read, program, records⟩ := exists_isProgram_of_parse parsed
  have shape : outline.shape = term.shape := by
    rw [← records, shape_map]
  refine ⟨term, read, ?_, ?_⟩
  · rw [Tree.shape, program.outline_root, shape]
  · rw [Command.text, program.outline_root, ← shape, Term.written_shape]

/-! ### Texts that are too long -/

/-- The tree of a text with the tokens of a sum of two names. -/
theorem exists_parse_sum (clock : Nat) {left right : String} {a b c d e : Span}
    (scanned : Token.scan source = .ok [⟨.identifier left, a⟩, ⟨.mark .plus, b⟩,
      ⟨.identifier right, c⟩, ⟨.mark .semi, d⟩, ⟨.endOfInput, e⟩]) :
    ∃ tree, Tree.parse clock source = .ok tree ∧ tree.shape = .sum left right ∧
      Command.text tree = left ++ (" + " ++ right ++ ";\n") := by
  obtain ⟨term, read, shape⟩ : ∃ term, SourceTerm.parse source = .ok term ∧
      term.shape = .sum left right := by
    rw [SourceTerm.parse, scanned]
    exact ⟨_, rfl, rfl⟩
  have parsed : Tree.parse clock source = .ok (ofTerm clock term) := by
    rw [Tree.parse_eq, read]
    rfl
  obtain ⟨again, readAgain, sameShape, sameText⟩ := exists_read parsed
  obtain rfl : term = again := by
    rw [read] at readAgain
    exact Except.ok.inj readAgain
  exact ⟨_, parsed, sameShape.trans shape, by rw [sameText, shape, Shape.written_sum]⟩

/-- A sum without a second name is refused. -/
theorem parse_ne_ok_of_scan {clock : Nat} {left : String} {a b c d : Span} {tree : Tree}
    (scanned : Token.scan source = .ok [⟨.identifier left, a⟩, ⟨.mark .plus, b⟩,
      ⟨.mark .semi, c⟩, ⟨.endOfInput, d⟩]) : Tree.parse clock source ≠ .ok tree := by
  rw [Tree.parse_eq, SourceTerm.parse, scanned]
  intro parsed
  cases parsed

/-- Behind the largest offset the second name of a sum is lost, and without it the text of the tree
is refused. -/
theorem exists_parse_sum_beyond (clock : Nat) :
    ∃ tree, Tree.parse clock (Text.longName Span.largestOffset ++ "+y;") = .ok tree ∧
      ∀ later again, Tree.parse later (Command.text tree) ≠ .ok again := by
  obtain ⟨letters, far⟩ : ∃ letters, letters + 1 = Span.largestOffset := ⟨4294967294, rfl⟩
  rw [← far]
  obtain ⟨tree, parsed, -, text⟩ := exists_parse_sum clock (Token.scan_sum_beyond far)
  refine ⟨tree, parsed, fun later again => ?_⟩
  rw [text]
  exact parse_ne_ok_of_scan (Token.scan_text_of_sum_beyond far)

/-- Where spans reach to the end of a sum but not of its text, the second name is lost in the
text. -/
theorem exists_parse_sum_inReach (clock later : Nat) :
    let source := Text.longName (Span.largestOffset - 3) ++ "+y;"
    Text.InReach source ∧ ∃ tree again left, Tree.parse clock source = .ok tree ∧
      tree.shape = .sum left "y" ∧ Tree.parse later (Command.text tree) = .ok again ∧
      again.shape = .sum left "" := by
  obtain ⟨letters, near⟩ : ∃ letters, letters + 4 = Span.largestOffset := ⟨4294967291, rfl⟩
  rw [← near, Nat.add_sub_cancel_right (letters + 1) 3]
  obtain ⟨inReach, scanned⟩ := Token.scan_sum_inReach near
  obtain ⟨tree, parsed, shape, text⟩ := exists_parse_sum clock scanned
  obtain ⟨again, reparsed, shapeAgain, -⟩ :=
    exists_parse_sum later (Token.scan_text_of_sum_inReach near)
  exact ⟨inReach, tree, again, _, parsed, shape, text ▸ reparsed, shapeAgain⟩

/-! ### Reading again -/

/-- The text of the tree of a source text is one of a tree again, which has the same shape exactly
when no node of the tree is a double negation; all offsets of both texts have to fit into spans. -/
theorem exists_parse_text {clock : Nat} {source : String} {tree : Tree}
    (inReach : Text.InReach source) (parsed : Tree.parse clock source = .ok tree)
    (textInReach : Text.InReach (Command.text tree)) (later : Nat) :
    ∃ again, Tree.parse later (Command.text tree) = .ok again ∧
      (again.shape = tree.shape ↔ ∀ ref ∈ tree.attached, ¬tree.IsDoubleNegation ref) := by
  obtain ⟨term, outline, read, program, records⟩ := exists_isProgram_of_parse parsed
  have shape : outline.shape = term.shape := by
    rw [← records, shape_map]
  have readable := SourceTerm.readable_of_inReach inReach read
  have text : Command.text tree = outline.shape.written := by
    rw [Command.text, program.outline_root, Term.written_shape]
  rw [← shape] at readable
  rw [text] at textInReach
  obtain ⟨again, readAgain, fused⟩ := SourceTerm.exists_parse_written readable textInReach
  obtain ⟨outlineAgain, programAgain, recordsAgain⟩ := exists_isProgram_ofTerm later again
  refine ⟨ofTerm later again, ?_, ?_⟩
  · rw [Tree.parse_eq, text, readAgain]
    rfl
  · have here : tree.shape = outline.shape := by rw [Tree.shape, program.outline_root]
    have there : (ofTerm later again).shape = again.shape := by
      rw [Tree.shape, programAgain.outline_root, ← recordsAgain, shape_map]
    rw [here, there, fused, Shape.fuse_eq_self_iff readable.sound]
    exact program.all_not_isDoubleNegation_iff

/-- A tree that was computed and passes a test. -/
theorem exists_of_any {result : Except Failure Tree} {test : Tree → Bool}
    (passes : result.toOption.any test = true) : ∃ tree, result = .ok tree ∧ test tree = true := by
  cases result with
  | error failure => cases passes
  | ok tree => exact ⟨tree, rfl, passes⟩

/-- Two signs in a row are read as a decrement. -/
theorem exists_parse_text_two_signs : ∃ tree again, Tree.parse 0 "- -x;" = .ok tree ∧
    Tree.parse 1 (Command.text tree) = .ok again ∧ again.shape ≠ tree.shape := by
  have computed : (Tree.parse 0 "- -x;").toOption.any (fun tree =>
      tree.attached.contains (some 2) && tree.kind (some 2) == .unary .neg (some 1) &&
        tree.kind (some 1) == .unary .neg (some 0) &&
          decide (Text.InReach (Command.text tree))) = true := by
    decide +kernel
  obtain ⟨tree, parsed, passes⟩ := exists_of_any computed
  simp only [Bool.and_eq_true, List.contains_iff_mem, beq_iff_eq, decide_eq_true_eq] at passes
  obtain ⟨⟨⟨attached, outer⟩, inner⟩, shortText⟩ := passes
  obtain ⟨again, reparsed, same⟩ := exists_parse_text (by decide +kernel) parsed shortText 1
  refine ⟨tree, again, parsed, reparsed, fun equal => ?_⟩
  exact same.1 equal (some 2) attached ⟨some 1, some 0, outer, .inl inner⟩

/-- A source text that is too long has a text that is refused, and one whose text is too long a text
of a tree of another shape. -/
theorem exists_parse_text_fails :
    (∃ tree, Tree.parse 0 (Text.longName Span.largestOffset ++ "+y;") = .ok tree ∧
      ∀ again, Tree.parse 1 (Command.text tree) ≠ .ok again) ∧
    (Text.InReach (Text.longName (Span.largestOffset - 3) ++ "+y;") ∧
      ∃ tree again, Tree.parse 0 (Text.longName (Span.largestOffset - 3) ++ "+y;") = .ok tree ∧
        (∀ ref ∈ tree.attached, ¬tree.IsDoubleNegation ref) ∧
        Tree.parse 1 (Command.text tree) = .ok again ∧ again.shape ≠ tree.shape) := by
  constructor
  · obtain ⟨tree, parsed, refused⟩ := exists_parse_sum_beyond 0
    exact ⟨tree, parsed, refused 1⟩
  · obtain ⟨inReach, tree, again, left, parsed, shape, reparsed, lost⟩ :=
      exists_parse_sum_inReach 0 1
    refine ⟨inReach, tree, again, parsed, ?_, reparsed, ?_⟩
    · obtain ⟨term, outline, -, program, -⟩ := exists_isProgram_of_parse parsed
      rw [← program.all_not_isDoubleNegation_iff, ← program.outline_root, ← Tree.shape, shape]
      exact Shape.all_not_isDoubleNegation_sum left "y"
    · rw [shape, lost]
      simp [Shape.sum]

end Tree

namespace Command

/-- A text is laid out afresh by laying out its tree. -/
theorem print_eq_ok_iff {text : String} :
    print source = .ok text ↔
    ∃ tree, Tree.parse 0 source = .ok tree ∧ Command.text tree = text := by
  rw [print, readTree]
  cases Tree.parse 0 source with
  | error failure => simp [Except.mapError]
  | ok tree => simp [Except.mapError]

/-- A text that was laid out afresh is laid out as it stands: where signs of it run together and are
read as others, these look the same. All offsets of both texts have to fit into spans. -/
theorem print_print {source text : String} (inReach : Text.InReach source)
    (printed : print source = .ok text) (textInReach : Text.InReach text) :
    print text = .ok text := by
  obtain ⟨tree, parsed, laidOut⟩ := print_eq_ok_iff.1 printed
  obtain ⟨term, read, -, written⟩ := Tree.exists_read parsed
  have readable := SourceTerm.readable_of_inReach inReach read
  have sourceOfTerm : text = term.shape.written := laidOut ▸ written
  obtain ⟨later, readAgain, fused⟩ :=
    SourceTerm.exists_parse_written readable (sourceOfTerm ▸ textInReach)
  have parsedAgain : Tree.parse 0 text = .ok (Tree.ofTerm 0 later) := by
    rw [Tree.parse_eq, sourceOfTerm, readAgain]
    rfl
  refine print_eq_ok_iff.2 ⟨_, parsedAgain, ?_⟩
  obtain ⟨again, readTwice, -, writtenAgain⟩ := Tree.exists_read parsedAgain
  obtain rfl : later = again := by
    rw [sourceOfTerm, readAgain] at readTwice
    exact Except.ok.inj readTwice
  -- The fusion of a shape looks like the shape.
  obtain ⟨fuses, -⟩ := Shape.fuses_fuse readable.sound
  calc
    Command.text (Tree.ofTerm 0 later) = later.shape.written := writtenAgain
    _ = (Shape.fuse term.shape).written := by rw [fused]
    _ = term.shape.written := Term.written_eq_of_alike fuses.alike fuses.fits.isStatement
    _ = text := sourceOfTerm.symm

/-- A source text that is too long is laid out as a text that is refused, and one whose text is too
long as a text that is laid out differently. -/
theorem print_print_fails :
    (∃ text, print (Text.longName Span.largestOffset ++ "+y;") = .ok text ∧
      ∀ again, print text ≠ .ok again) ∧
    (Text.InReach (Text.longName (Span.largestOffset - 3) ++ "+y;") ∧
      ∃ text again, print (Text.longName (Span.largestOffset - 3) ++ "+y;") = .ok text ∧
        print text = .ok again ∧ again ≠ text) := by
  constructor
  · obtain ⟨tree, parsed, refused⟩ := Tree.exists_parse_sum_beyond 0
    refine ⟨_, print_eq_ok_iff.2 ⟨tree, parsed, rfl⟩, fun again printed => ?_⟩
    obtain ⟨other, reparsed, -⟩ := print_eq_ok_iff.1 printed
    exact refused 0 other reparsed
  · obtain ⟨inReach, tree, again, left, parsed, shape, reparsed, lost⟩ :=
      Tree.exists_parse_sum_inReach 0 0
    refine ⟨inReach, _, _, print_eq_ok_iff.2 ⟨tree, parsed, rfl⟩,
      print_eq_ok_iff.2 ⟨again, reparsed, rfl⟩, ?_⟩
    obtain ⟨term, -, termShape, written⟩ := Tree.exists_read parsed
    obtain ⟨other, -, otherShape, otherWritten⟩ := Tree.exists_read reparsed
    rw [written, otherWritten, ← termShape, ← otherShape, shape, lost, Shape.written_sum,
      Shape.written_sum]
    intro same
    have length := congrArg String.length same
    simp only [String.length_append, Nat.add_right_cancel_iff, Nat.add_left_cancel_iff] at length
    exact absurd length (by decide)

/-- Three signs in a row, of which two are read as a decrement, are laid out as they stand. -/
theorem print_print_three_signs :
    print "- - -x;" = .ok "---x;\n" ∧ print "---x;\n" = .ok "---x;\n" := by
  have printed : print "- - -x;" = .ok "---x;\n" := by
    cbv
  exact ⟨printed, print_print (by decide +kernel) printed (by decide +kernel)⟩

end Command

end Refactory
