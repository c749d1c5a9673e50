import Refactory.Proofs.Grammar.Sound
import Refactory.Proofs.Grammar.Whole
import Refactory.Proofs.Layout.Fusion
import Refactory.Proofs.Token.Location

/-!
# Reading what was laid out

Reading and laying out fit together. Whatever is parsed has a readable shape, and the text of a
readable shape is read as its fusion (`SourceTerm.exists_parse_written`). So a shape is what its
text is read as exactly when it is readable and no negation in it stands right before another one
or before a decrement (`SourceTerm.rereads_iff`). All of this is about texts whose offsets fit into
spans: of a longer text one only knows that it is readable but for its names and string contents.
-/
namespace Refactory

variable {term : SourceTerm} {shape : Shape} {text : String}

namespace SourceTerm

open Shape

/-- The parser takes a text if the lexemes of its tokens are those of a readable shape, and gives a
term of that shape. -/
theorem exists_parse_of_readable {spelling : Spelling}
    (readable : Readable spelling shape) {tokens : List Token}
    (scanned : Token.scan text = .ok tokens)
    (spelled : Token.lexemes tokens = lexemes shape ++ [Lexeme.endOfInput]) :
    ∃ term, SourceTerm.parse text = .ok term ∧ term.shape = shape := by
  have gives := Parser.gives_unit readable spelled (Parser.unitBound tokens) .nowhere
  have reads := Parser.meets_unit tokens (Token.valid_of_scan scanned) .nowhere
  simp only [SourceTerm.parse, scanned, ofTokens]
  revert gives reads
  cases (Parser.unit (Parser.unitBound tokens)).run ⟨tokens, .nowhere⟩ with
  | ok outcome => exact fun same _ => ⟨outcome.1, rfl, same⟩
  | error failure =>
    cases failure with
    | refused error => exact fun refused _ => refused.elim
    | exhausted => exact fun _ exhausted => exhausted.elim

/-- What is parsed has a shape that is readable, with names and contents as they are in the
tokens. -/
theorem readable_of_valid {spelling : Spelling}
    (valid : ∀ tokens, Token.scan text = .ok tokens → Token.Valid spelling tokens)
    (parsed : SourceTerm.parse text = .ok term) : Readable spelling term.shape := by
  simp only [SourceTerm.parse] at parsed
  cases scanned : Token.scan text with
  | error error => simp [scanned] at parsed
  | ok tokens =>
    have reads := Parser.meets_unit tokens (valid tokens scanned) .nowhere
    simp only [scanned, ofTokens] at parsed
    revert reads parsed
    cases (Parser.unit (Parser.unitBound tokens)).run ⟨tokens, .nowhere⟩ with
    | ok outcome =>
      rintro reads ⟨⟩
      exact reads
    | error failure => exact fun _ parsed => by cases parsed

/-- Whatever is parsed has a shape that is readable but for its names and contents. -/
theorem readable_of_parse
    (parsed : SourceTerm.parse text = .ok term) : Readable .any term.shape :=
  readable_of_valid (fun _ => Token.valid_of_scan) parsed

/-- Whatever is parsed has a readable shape, if spans reach to the end of the text. -/
theorem readable_of_inReach (inReach : Text.InReach text)
    (parsed : SourceTerm.parse text = .ok term) : Readable .scanned term.shape :=
  readable_of_valid (fun _ => Token.valid_of_inReach inReach) parsed

end SourceTerm

namespace Shape

open Lexeme

/-- The fusion of a readable shape is readable. -/
theorem readable_fuse (readable : Readable .scanned shape) : Readable .scanned (fuse shape) := by
  obtain ⟨isUnit, sound, noMethod⟩ := readable
  have fused := (fuses_fuse sound).1
  rcases shape with ⟨note, form⟩
  cases form with
  | unit members =>
    have same : fuse (.node note (.unit members)) = .node note (.unit (members.map fuse)) := by
      rw [fuse, Term.rework_node]
      rfl
    rw [same] at fused ⊢
    refine ⟨rfl, fused.sound, ?_⟩
    have formed := fun member (inside : member ∈ members) =>
      Parser.formed_of_sound ((Term.All.node_iff.1 sound).2 member (by simpa using inside))
    have formedFused := fun member (inside : member ∈ members.map fuse) =>
      Parser.formed_of_sound ((Term.All.node_iff.1 fused.sound).2 member (by simpa using inside))
    rw [Parser.isFalseMethod_iff formedFused]
    rintro ⟨_, inside, statement, ahead⟩
    obtain ⟨member, original, rfl⟩ := List.mem_map.1 inside
    have soundMember := (Term.All.node_iff.1 sound).2 member (by simpa using original)
    have fusedMember := (fuses_fuse soundMember).1
    refine noMethod ((Parser.isFalseMethod_iff formed).2 ⟨member, original, ?_, ?_⟩)
    · exact fusedMember.fits.isStatement.symm.trans statement
    · exact (fusedMember.covers followsMethod rfl rfl).ahead ahead
  | _ => cases isUnit

end Shape

namespace SourceTerm

open Shape

/-- The text of a readable shape is read as the fusion of the shape. -/
theorem exists_parse_written (readable : Readable .scanned shape)
    (inReach : Text.InReach shape.written) :
    ∃ term, SourceTerm.parse shape.written = .ok term ∧ term.shape = fuse shape := by
  have readableFuse := readable_fuse readable
  obtain ⟨fused, single⟩ := fuses_fuse readable.sound
  have written : shape.written = (fuse shape).written :=
    (Term.written_eq_of_alike fused.alike fused.fits.isStatement).symm
  rw [written] at inReach ⊢
  obtain ⟨isUnit, sound, -⟩ := id readableFuse
  revert isUnit sound single readableFuse inReach
  rcases fuse shape with ⟨note, form⟩
  intro inReach readableFuse single isUnit sound
  cases form with
  | unit members =>
    obtain ⟨tokens, scanned, spelled⟩ :=
      Layout.exists_scanFrom_written (Parser.formed_of_sound sound) single
    rw [← Token.scan_eq_of_inReach inReach] at scanned
    exact exists_parse_of_readable readableFuse scanned spelled
  | _ => cases isUnit

/-- A shape is what its text is read as exactly when it is readable and has no two signs in a
row. -/
theorem rereads_iff (inReach : Text.InReach shape.written) :
    (∃ term, SourceTerm.parse shape.written = .ok term ∧ term.shape = shape) ↔
      Readable .scanned shape ∧ shape.All (¬IsDoubleNegation ·) := by
  constructor
  · rintro ⟨term, parsed, same⟩
    have readable := readable_of_inReach inReach parsed
    rw [same] at readable
    obtain ⟨again, parsedAgain, fused⟩ := exists_parse_written readable inReach
    rw [parsed] at parsedAgain
    obtain rfl := Except.ok.inj parsedAgain
    exact ⟨readable, (fuse_eq_self_iff readable.sound).1 (fused.symm.trans same)⟩
  · rintro ⟨readable, single⟩
    obtain ⟨term, parsed, fused⟩ := exists_parse_written readable inReach
    exact ⟨term, parsed, fused.trans (fuse_eq_self single)⟩

end SourceTerm

end Refactory
