import Refactory.Proofs.Refactoring.UpholdingLoop
import Refactory.Proofs.Refactoring.UpholdingQuantifier
import Refactory.Proofs.Sequence

/-!
# What refactorings keep of the grammar

The nodes of all trees that are reached have children of the right sorts (`Reached.isSorted`). The
result of a refactoring of a tree whose text is read as a term of its shape is read so in turn,
unless one of three things is in it: a receiver that holds together too loosely, which only two
refactorings make (`Refactoring.mayLoosen`); an expression that looks like a declaration; or one
that looks like a method (`Context.rereads_iff_of_offered`). All else that the grammar asks for
every refactoring keeps.
-/
namespace Refactory

open Term Shape Refactory.Tree

/-- Refactorings that may make a receiver of what was none. -/
def Refactoring.mayLoosen : Refactoring → Bool
  | invertQuantifier | forEachToFor => true
  | _ => false

namespace Context

variable {tree : Tree} {settings : Settings} {grade : Grade} {whole : Outline} {ref : Ref}

/-- Every refactoring leaves a program as a grade asks it to be, where it does not make a receiver
of what was none or where this holds together as tightly as a receiver must. -/
theorem attempt_upholds (program : tree.IsProgram whole) (isUnit : whole.kind.sort = .unit)
    (upholds : Shape.Upholds grade whole.shape)
    (member : ref ∈ whole.refs) (allowed : settings.Allowed grade) (refactoring : Refactoring) :
    Attempt.Gives ((ofTree tree settings).attempt refactoring ref) (Offers fun result =>
      result.UpholdsIfTight grade ∧ (refactoring.mayLoosen = false → result.Upholds grade)) := by
  let context := ofTree tree settings
  have kept {attempt : Attempt (Option Action)}
      (gives : Attempt.Gives attempt (Offers (Tree.Upholds grade))) :
      Attempt.Gives attempt (Offers fun result =>
        result.UpholdsIfTight grade ∧ (refactoring.mayLoosen = false → result.Upholds grade)) :=
    gives.mono fun _ offers action isOffered =>
      ⟨(offers action isOffered).ifTight, fun _ => offers action isOffered⟩
  have loosened {attempt : Attempt (Option Action)} (may : refactoring.mayLoosen = true)
      (gives : Attempt.Gives attempt (Offers (Tree.UpholdsIfTight grade))) :
      Attempt.Gives attempt (Offers fun result =>
        result.UpholdsIfTight grade ∧ (refactoring.mayLoosen = false → result.Upholds grade)) :=
    gives.mono fun _ offers action isOffered =>
      ⟨offers action isOffered, fun not => Bool.noConfusion (may.symm.trans not)⟩
  cases refactoring with
  | mergeWhere =>
    exact kept (@merge_upholds context _ _ _ _ _ _ (Merging.filters_keeps grade) program isUnit
      upholds member allowed)
  | splitWhere => exact kept (@splitFilter_upholds context _ _ _ program isUnit upholds member)
  | mergeSelect =>
    exact kept (@merge_upholds context _ _ _ _ _ _ (Merging.projections_keeps grade) program isUnit
      upholds member allowed)
  | splitSelect => exact kept (@splitProjection_upholds context _ _ _ program isUnit upholds member)
  | invertQuantifier =>
    exact loosened rfl (@invertQuantifier_upholds _ context _ _ program isUnit upholds member)
  | forToForEach =>
    exact kept (@forToForEach_upholds context _ _ _ program isUnit upholds member allowed)
  | forEachToFor =>
    exact loosened rfl (@forEachToFor_upholds context _ _ _ program isUnit upholds member allowed)
  | chainCalls => exact kept (chainCalls_upholds program isUnit upholds member)
  | unchainCalls =>
    exact kept (@unchainCalls_upholds context _ _ _ program isUnit upholds member allowed)

end Context

namespace Tree

variable {tree : Tree} {whole : Outline}

/-- The shape of a tree is that of its program. -/
theorem IsProgram.shape_eq (program : tree.IsProgram whole) : tree.shape = whole.shape := by
  rw [Tree.shape, program.outline_root]

/-- Where all nodes have children of the right sorts, the tree is sorted. -/
theorem Upholds.isSorted (upholds : tree.Upholds .sorted) : tree.IsSorted := by
  obtain ⟨whole, program, isUnit, upholds⟩ := upholds
  exact IsUnit.isSorted ⟨program, isUnit, inPlace_of_upholds upholds⟩

/-- A tree is as a grade asks when its shape is that of a unit and as the grade asks. -/
theorem IsProgram.upholds_iff {grade : Grade} (program : tree.IsProgram whole) :
    tree.Upholds grade ↔ Shape.isUnit tree.shape = true ∧ Shape.Upholds grade tree.shape := by
  have isUnit_iff (shape : Shape) : Shape.isUnit shape = true ↔ shape.kind.sort = .unit := by
    rcases shape with ⟨note, form⟩
    cases form <;> simp [Shape.isUnit, Term.kind, Kind.sort]
  rw [isUnit_iff]
  constructor
  · rintro ⟨other, isProgram, isUnit, upholds⟩
    rw [isProgram.shape_eq, sort_shape]
    exact ⟨isUnit, upholds⟩
  · rw [program.shape_eq, sort_shape]
    intro held
    exact ⟨whole, program, held.1, held.2⟩

/-- The text of a tree, where spans reach to its end, is read as a term of the shape of the tree
when the nodes are as the grammar asks, and nothing in it looks like a declaration or a method that
is none. -/
theorem rereads_iff (wellFormed : tree.WellFormed) (inReach : Text.InReach (Command.text tree)) :
    tree.Rereads ↔ tree.Upholds .formed ∧ tree.shape.All (¬IsFalseDeclaration ·) ∧
      ¬IsFalseMethod tree.shape := by
  obtain ⟨whole, program⟩ := wellFormed_iff.1 wellFormed
  rw [Standing.text_eq] at inReach
  rw [Tree.Rereads, Standing.text_eq, SourceTerm.rereads_iff inReach, program.upholds_iff,
    Shape.Upholds]
  simp only [all_iff_subterms]
  constructor
  · rintro ⟨⟨isUnit, sound, noMethod⟩, single⟩
    rw [all_iff_subterms] at sound
    exact ⟨⟨isUnit, fun part inside => ⟨(sound part inside).formed, single part inside⟩⟩,
      fun part inside => (sound part inside).noDeclaration, noMethod⟩
  · rintro ⟨⟨isUnit, upholds⟩, noDeclaration, noMethod⟩
    exact ⟨⟨isUnit, all_iff_subterms.2 fun part inside => ⟨(upholds part inside).1,
      noDeclaration part inside⟩, noMethod⟩, fun part inside => (upholds part inside).2⟩

end Tree

/-- The trees of source texts and all that are made of them by refactorings have children of the
right sorts. -/
theorem Reached.isSorted {tree : Tree} (reached : Reached tree) : tree.IsSorted := by
  suffices tree.Upholds .sorted from this.isSorted
  induction reached with
  | parse parsed =>
    obtain ⟨term, read, same, -⟩ := exists_read parsed
    obtain ⟨whole, program⟩ := wellFormed_iff.1 (wellFormed_of_parse parsed)
    obtain ⟨isUnit, sound, -⟩ := SourceTerm.readable_of_parse read
    rw [program.upholds_iff, same]
    exact ⟨isUnit, sound.mono fun _ isSound => isSound.formed.isSeated⟩
  | @refactor tree settings refactoring ref action _ member offered ih =>
    obtain ⟨whole, program, isUnit, upholds⟩ := ih
    rw [program.attached] at member
    have allowed : settings.Allowed .sorted := fun _ _ formed => by cases formed
    obtain ⟨⟨changed, isProgram, isUnitChanged, upholdsChanged⟩, -⟩ := Context.of_offered
      (Context.attempt_upholds program isUnit upholds member allowed refactoring).yields offered
    exact ⟨changed, isProgram, isUnitChanged, upholdsChanged fun formed => by cases formed⟩

/-- The text of the result of a refactoring is read as a term of its shape if that of the tree was
and no receiver in the result holds together too loosely, no expression looks like a declaration and
no statement like a method. Spans have to reach to the end of both texts. -/
theorem Context.rereads_iff_of_offered {tree : Tree} {settings : Settings}
    {refactoring : Refactoring} {ref : Ref} {action : Action} (wellFormed : tree.WellFormed)
    (rereads : tree.Rereads) (allowed : settings.Allowed .formed)
    (member : ref ∈ tree.attached)
    (offered : (ofTree tree settings).offered? refactoring ref = .ok (some action))
    (inReach : Text.InReach (Command.text tree))
    (resultInReach : Text.InReach (Command.text action.result)) :
    action.result.Rereads ↔ (refactoring.mayLoosen = true → action.result.shape.All (¬IsLoose ·)) ∧
      action.result.shape.All (¬IsFalseDeclaration ·) ∧ ¬IsFalseMethod action.result.shape := by
  obtain ⟨⟨whole, program, isUnit, upholds⟩, -⟩ := (rereads_iff wellFormed inReach).1 rereads
  rw [program.attached] at member
  obtain ⟨⟨changed, isProgram, isUnitChanged, upholdsChanged⟩, kept⟩ := Context.of_offered
    (Context.attempt_upholds program isUnit upholds member allowed refactoring).yields offered
  rw [rereads_iff (wellFormed_iff.2 ⟨changed, isProgram⟩) resultInReach]
  refine and_congr_left fun _ => ⟨fun formed _ => ?_, fun tight => ?_⟩
  · exact (isProgram.upholds_iff.1 formed).2.mono fun _ meets => meets.1.not_isLoose
  · cases may : refactoring.mayLoosen with
    | false => exact kept may
    | true => exact ⟨changed, isProgram, isUnitChanged, upholdsChanged fun _ =>
      isProgram.shape_eq ▸ tight may⟩

/-- The text of a call that is inlined behind a comparison is refused, since it looks like a method
there. -/
theorem Context.inlined_looks_otherwise : ∃ tree action,
    Tree.parse 0 "var t = r(1).G();\na < b > t.F();\n" = .ok tree ∧
      (ofTree tree {}).offered? .chainCalls (some 8) = .ok (some action) ∧
      (∀ term, SourceTerm.parse (Command.text action.result) ≠ .ok term) ∧
      ¬(action.result.shape.All (¬IsFalseDeclaration ·) ∧ ¬IsFalseMethod action.result.shape) := by
  have facts : (Tree.parse 0 "var t = r(1).G();\na < b > t.F();\n").toOption.any (fun tree =>
      some 8 ∈ tree.attached && Command.text tree = "var t = r(1).G();\na < b > t.F();\n" &&
        ((ofTree tree {}).offered? .chainCalls (some 8)).toOption.any (·.any fun action =>
          decide (Text.InReach (Command.text action.result)) &&
            !(SourceTerm.parse (Command.text action.result)).isOk)) = true := by
    decide +kernel
  obtain ⟨tree, parsed, facts⟩ := exists_of_any facts
  simp only [Bool.and_eq_true, decide_eq_true_eq] at facts
  obtain ⟨⟨member, text⟩, offers⟩ := facts
  obtain ⟨offered, isOffered, some⟩ := (Option.any_eq_true _ _).1 offers
  obtain ⟨action, rfl, refused⟩ := (Option.any_eq_true _ _).1 some
  simp only [Bool.and_eq_true, decide_eq_true_eq, Bool.not_eq_true'] at refused
  obtain ⟨inReach, refused⟩ := refused
  replace isOffered := eq_ok_of_toOption isOffered
  have refuses : ∀ term, SourceTerm.parse (Command.text action.result) ≠ .ok term := by
    intro term read
    rw [read] at refused
    cases refused
  have rereads : tree.Rereads := by
    obtain ⟨term, read, same, -⟩ := exists_read parsed
    exact ⟨term, text ▸ read, same.symm⟩
  have textInReach : Text.InReach (Command.text tree) := by
    rw [text]
    decide +kernel
  refine ⟨tree, action, parsed, isOffered, refuses, fun tight => ?_⟩
  obtain ⟨term, read, -⟩ := (rereads_iff_of_offered (wellFormed_of_parse parsed) rereads
    Settings.allowed_formed member isOffered textInReach inReach).2 ⟨(Bool.noConfusion ·), tight⟩
  exact refuses term read

end Refactory
