import Refactory.Proofs.Grammar.Congruence
import Refactory.Proofs.Layout.Scanning

/-!
# Negations that run together

The signs of two negations in a row are written without a space, and a reader takes them for one
decrement. The fusion of a shape (`Shape.fuse`) is what a reader makes of it: it looks the same, it
has no two such signs in a row, and it is the shape itself exactly when that had none either.
-/
namespace Refactory

variable {operand : Shape} {shape : Shape} {note : Unit} {form : Term.Form Unit}

namespace Shape

open Lexeme

/-- The negation of an operand as it is read: its sign goes to a negation or a decrement right after
it, and what is left over goes on to the operand of the decrement. -/
def negated : Shape → Shape
  | .node note (.unary .neg operand) => .node note (.unary .preDec operand)
  | .node note (.unary .preDec (some operand)) =>
    .node note (.unary .preDec (some (negated operand)))
  | operand => .node () (.unary .neg (some operand))

/-- A node as it is read, when its children are already as they are read. -/
def fuseNode (note : Unit) : Term.Form Unit → Shape
  | .unary .neg (some operand) => negated operand
  | form => .node note form

/-- A shape as its written form is read. -/
def fuse : Shape → Shape := Term.rework fun shape form => fuseNode shape.note form

/-- What fusing keeps: a shape and another one that looks the same and may stand in its place. -/
structure Fuses (old new : Shape) : Prop where
  /-- They look the same. -/
  alike : Layout.Alike new old
  /-- The new one fits. -/
  fits : Fits new old
  /-- It holds together as tightly. -/
  level : level old ≤ level new
  /-- Its nodes are sound. -/
  sound : new.All (IsSound .scanned)
  /-- The lookahead for declarations and methods sees nothing new. -/
  covers : ∀ follows : Lexeme → Bool, follows (.mark .minus) = false →
    follows (.mark .minusMinus) = false → Covers follows (lexemes old) (lexemes new)

theorem Fuses.refl (sound : shape.All (IsSound .scanned)) : Fuses shape shape where
  alike := ⟨fun _ => rfl, fun _ => rfl, rfl, rfl, rfl, rfl⟩
  fits := .refl shape
  level := Nat.le_refl _
  sound := sound
  covers _ _ _ := .refl _

/-- A fused negation starts with a sign. -/
theorem exists_lexemes_negated (operand : Shape) :
    ∃ more, lexemes (negated operand) = .mark .minus :: more ∨
      lexemes (negated operand) = .mark .minusMinus :: more := by
  unfold negated
  split
  · exact ⟨_, .inr rfl⟩
  · exact ⟨_, .inr rfl⟩
  · exact ⟨_, .inl rfl⟩

/-- The lookahead sees nothing past the sign of a fused negation. -/
theorem covers_negated {follows : Lexeme → Bool} (minus : follows (.mark .minus) = false)
    (minusMinus : follows (.mark .minusMinus) = false) (lexemes : List Lexeme) (operand : Shape) :
    Covers follows lexemes (negated operand).lexemes := by
  obtain ⟨more, same | same⟩ := exists_lexemes_negated operand
  · exact same ▸ .of_unseen (opaque_of_wall rfl minus)
  · exact same ▸ .of_unseen (opaque_of_wall rfl minusMinus)

/-- The text of an operation with its operator in front. -/
theorem text_leading {op : UnaryOp} (isPrefix : op.isPostfix = false) (level : Nat) (note : Unit)
    (operand : Shape) : Layout.text level (.node note (.unary op (some operand)))
      = op.symbol ++ Layout.text level operand := by
  simp only [Layout.text, isPrefix, Bool.false_eq_true, if_false, Layout.child]

/-- The text of a fused negation is that of the negation. -/
theorem text_negated (level : Nat) (operand : Shape) :
    Layout.text level (negated operand) = "-" ++ Layout.text level operand := by
  have twoSigns (rest : String) : "--" ++ rest = "-" ++ ("-" ++ rest) := by
    rw [← String.append_assoc]
    rfl
  fun_induction negated operand with
  | case1 note inner => exact twoSigns (Layout.child level inner)
  | case2 note inner ih =>
    rw [text_leading rfl, text_leading rfl, ih]
    exact twoSigns _
  | case3 operand => exact text_leading rfl level () operand

/-- A fused negation is an operation with its operator in front. -/
theorem exists_negated (operand : Shape) : ∃ note op inner,
    negated operand = .node note (.unary op inner) ∧ (op = .neg ∨ op = .preDec) := by
  unfold negated
  split
  · exact ⟨_, _, _, rfl, .inr rfl⟩
  · exact ⟨_, _, _, rfl, .inr rfl⟩
  · exact ⟨_, _, _, rfl, .inl rfl⟩

/-- A fused negation is sound if its operand is. -/
theorem sound_negated (sound : operand.All (IsSound .scanned))
    (tight : isOperand prefixLevel operand = true) : (negated operand).All (IsSound .scanned) := by
  fun_induction negated operand with
  | case1 note inner =>
    obtain ⟨here, below⟩ := Term.All.node_iff.1 sound
    exact Term.All.node_iff.2 ⟨⟨here.formed, id⟩, below⟩
  | case2 note inner ih =>
    obtain ⟨here, below⟩ := Term.All.node_iff.1 sound
    have inside := ih (below inner (by simp)) here.formed
    refine Term.All.node_iff.2 ⟨⟨?_, id⟩, by simpa using inside⟩
    obtain ⟨note', op, inner', same, isSign⟩ := exists_negated inner
    rw [same]
    rcases isSign with rfl | rfl <;> rfl
  | case3 operand => exact Term.All.node_iff.2 ⟨⟨tight, id⟩, by simpa using sound⟩

/-- A fused negation is what the negation is read as. -/
theorem fuses_negated (sound : operand.All (IsSound .scanned))
    (tight : isOperand prefixLevel operand = true) :
    Fuses (.node note (.unary .neg (some operand))) (negated operand) := by
  have texts (level : Nat) : Layout.text level (negated operand)
      = Layout.text level (.node note (.unary .neg (some operand))) :=
    (text_negated level operand).trans (@text_leading .neg rfl level note operand).symm
  have soundNegated := sound_negated sound tight
  have covers := fun follows minus minusMinus => @covers_negated follows minus minusMinus
    (lexemes (.node note (.unary .neg (some operand)))) operand
  obtain ⟨note', op, inner, same, isSign⟩ := exists_negated operand
  rw [same] at texts soundNegated covers ⊢
  rcases isSign with rfl | rfl
  all_goals exact {
    alike := ⟨texts, texts, rfl, rfl, rfl, rfl⟩
    fits := { toKin := by constructor <;> rfl, level := Nat.le_refl 8, endsOpen := id,
              swallows := id, endsOpenIf := id, isSigned := fun _ => rfl }
    level := Nat.le_refl _
    sound := soundNegated
    covers := covers }

theorem exists_of_isSigned (signed : isSigned shape = true) : ∃ note op operand,
    shape = .node note (.unary op operand) ∧ (op = .neg ∨ op = .preDec) := by
  rcases shape with ⟨note, form⟩
  cases form with
  | unary op operand =>
    exact ⟨note, op, operand, rfl, by cases op <;> simp_all [isSigned, Term.kind]⟩
  | _ => cases signed

/-- A fused negation has no two signs in a row if its operand has none. -/
theorem single_negated (sound : operand.All (IsSound .scanned))
    (single : operand.All (¬IsDoubleNegation ·)) :
    (negated operand).All (¬IsDoubleNegation ·) := by
  fun_induction negated operand with
  | case1 note inner =>
    obtain ⟨-, below⟩ := Term.All.node_iff.1 single
    exact Term.All.node_iff.2 ⟨id, below⟩
  | case2 note inner ih =>
    obtain ⟨-, below⟩ := Term.All.node_iff.1 single
    have soundInner := (Term.All.node_iff.1 sound).2 inner (by simp)
    exact Term.All.node_iff.2 ⟨id, by simpa using ih soundInner (below inner (by simp))⟩
  | case3 operand notNeg notDec =>
    refine Term.All.node_iff.2 ⟨fun signed => ?_, by simpa using single⟩
    obtain ⟨note, op, inner, rfl, rfl | rfl⟩ := exists_of_isSigned signed
    · exact notNeg note inner rfl
    · obtain ⟨inner, rfl, -⟩ := (Option.any_eq_true _ _).1 sound.here.formed
      exact notDec note inner rfl

/-- What a node without two signs in a row is read as is the node itself. -/
theorem fuseNode_eq
    (single : ¬IsDoubleNegation (.node note form)) : fuseNode note form = .node note form := by
  unfold fuseNode
  split
  · rename_i operand
    unfold negated
    split
    · exact absurd rfl single
    · exact absurd rfl single
    · rfl
  · rfl

/-- What a node is read as is what it is fused to. -/
theorem fuses_fuseNode
    (sound : Term.All (IsSound .scanned) (.node note form)) :
    Fuses (.node note form) (fuseNode note form) := by
  unfold fuseNode
  split
  · rename_i operand
    exact fuses_negated ((Term.All.node_iff.1 sound).2 operand (by simp)) sound.here.formed
  · exact .refl sound

/-- The lookahead sees nothing new in what a node is read as. -/
theorem covers_fuseNode {follows : Lexeme → Bool} (minus : follows (.mark .minus) = false)
    (minusMinus : follows (.mark .minusMinus) = false) {old : List Lexeme}
    (covers : Covers follows old (lexemes (.node note form))) :
    Covers follows old (lexemes (fuseNode note form)) := by
  unfold fuseNode
  split
  · exact covers_negated minus minusMinus old _
  · exact covers

/-- What a node is read as has no two signs in a row if its children have none. -/
theorem single_fuseNode
    (sound : Term.All (IsSound .scanned) (.node note form))
    (below : ∀ child ∈ Term.parts form, child.All (¬IsDoubleNegation ·)) :
    (fuseNode note form).All (¬IsDoubleNegation ·) := by
  unfold fuseNode
  split
  · rename_i operand
    exact single_negated ((Term.All.node_iff.1 sound).2 operand (by simp))
      (below operand (by simp))
  · rename_i other
    refine Term.All.node_iff.2 ⟨fun double => ?_, below⟩
    unfold IsDoubleNegation at double
    split at double
    · rename_i operand same
      cases same
      obtain ⟨operand, rfl, -⟩ := (Option.any_eq_true _ _).1 double
      exact other operand rfl
    · exact double

/-- Nothing is fused that has no two signs in a row. -/
theorem fuse_eq_self (single : shape.All (¬IsDoubleNegation ·)) :
    fuse shape = shape := by
  induction shape using Term.induction with
  | step note form ih =>
    obtain ⟨here, below⟩ := Term.All.node_iff.1 single
    have same : Term.mapChildren fuse form = form :=
      Term.mapChildren_eq_self fun child member => ih child member (below child member)
    rw [fuse, Term.rework_node, ← fuse, same]
    exact fuseNode_eq here

/-- What fuses and is fused again fuses. -/
theorem Fuses.trans {first second third : Shape} (left : Fuses first second)
    (right : Fuses second third)
    (covers : ∀ follows : Lexeme → Bool, follows (.mark .minus) = false →
      follows (.mark .minusMinus) = false → Covers follows (lexemes first) (lexemes third)) :
    Fuses first third where
  alike := right.alike.trans left.alike
  fits := right.fits.trans left.fits
  level := Nat.le_trans left.level right.level
  sound := right.sound
  covers := covers

/-- The fusion of a shape whose nodes are sound looks the same and has no two signs in a row. -/
theorem fuses_fuse (sound : shape.All (IsSound .scanned)) :
    Fuses shape (fuse shape) ∧ (fuse shape).All (¬IsDoubleNegation ·) := by
  induction shape using Term.induction with
  | step note form ih =>
    obtain ⟨here, below⟩ := Term.All.node_iff.1 sound
    have children : ∀ child ∈ Term.parts form, Fuses child (fuse child) := fun child member =>
      (ih child member (below child member)).1
    have fits := fun child member => (children child member).fits
    have covers := fun follows minus minusMinus child member =>
      (children child member).covers follows minus minusMinus
    rw [← Term.mapChildren_id form] at here
    have tight :=
      @not_isLoose_mapChildren .scanned _ _ fuse note note form here.formed fun child member =>
      (children child member).level
    have soundNode : Term.All (IsSound .scanned) (.node note (Term.mapChildren fuse form)) := by
      refine Term.All.node_iff.2 ⟨⟨isFormed_mapChildren fits here.formed tight, ?_⟩, ?_⟩
      · exact not_isFalseDeclaration_mapChildren (covers _ rfl rfl) here.noDeclaration
      · intro child member
        rw [Term.parts_mapChildren, List.mem_map] at member
        obtain ⟨child, member, rfl⟩ := member
        exact (children child member).sound
    have changed := @fits_mapChildren _ _ fuse note note form fits
    have covered := fun follows minus minusMinus => @lexemes_congr _ _ rowwise_covers _ fuse note
      note form (covers follows minus minusMinus) fun child member => (fits child member).toKin
    rw [Term.mapChildren_id] at changed covered
    have node : Fuses (.node note form) (.node note (Term.mapChildren fuse form)) := {
      alike := Layout.alike_mapChildren fun child member => (children child member).alike
      fits := changed
      level := by cases form <;> exact Nat.le_refl _
      sound := soundNode
      covers := covered }
    rw [fuse, Term.rework_node, ← fuse]
    refine ⟨node.trans (fuses_fuseNode soundNode) fun follows minus minusMinus => ?_, ?_⟩
    · exact covers_fuseNode minus minusMinus (node.covers follows minus minusMinus)
    · refine single_fuseNode soundNode fun child member => ?_
      rw [Term.parts_mapChildren, List.mem_map] at member
      obtain ⟨child, member, rfl⟩ := member
      exact (ih child member (below child member)).2

/-- A shape is its own fusion exactly when it has no two signs in a row. -/
theorem fuse_eq_self_iff (sound : shape.All (IsSound .scanned)) :
    fuse shape = shape ↔ shape.All (¬IsDoubleNegation ·) := by
  refine ⟨fun same => ?_, fuse_eq_self⟩
  have single := (fuses_fuse sound).2
  rwa [same] at single

end Shape

end Refactory
