import Refactory.Proofs.Layout.Rereading
import Refactory.Proofs.Tree.Forms
import Refactory.Proofs.Tree.Types

/-!
# The types of source texts

In what is read from a text, declarations have types for their types (`Term.HasTypes`), and they
have them in the tree in which it is stored (`Tree.typesFormed_of_parse`).
-/
namespace Refactory

namespace Term

variable {α : Type}

/-- A declaration has a type for its type, and a type has types for its arguments. -/
def HasTypes (term : Term α) : Prop :=
  match term.kind with
  | .localDecl type _ => ∀ inner ∈ type, inner.kind.isType
  | .typeRef _ arguments _ => ∀ inner ∈ arguments, inner.kind.isType
  | _ => True

theorem isType_shape (term : Term α) : Shape.isType term.shape = term.kind.isType := by
  rcases term with ⟨note, form⟩
  cases form <;> rfl

/-- A term has types for its types where its shape is formed as the grammar says. -/
theorem hasTypes_of_isFormed {spelling : Spelling} {term : Term α}
    (formed : Shape.IsFormed spelling term.shape) : HasTypes term := by
  rcases term with ⟨note, form⟩
  cases form
  case localDecl type declarators =>
    rw [shape, map, mapForm, mapSome_eq] at formed
    intro inner isType
    obtain rfl := Option.mem_def.1 isType
    exact isType_shape inner ▸ formed.1
  case typeRef name arguments rank =>
    rw [shape, map, mapForm, mapAll_eq] at formed
    intro inner isArgument
    exact isType_shape inner ▸ List.all_eq_true.1 formed.2.1 _ (List.mem_map_of_mem isArgument)
  all_goals trivial

end Term

namespace Tree

open Term

/-- A node that is shown has types for its types when its term has. -/
theorem Shows.fitsTypes {tree : Tree} {term : Outline} (shows : tree.Shows term)
    (below : ∀ child ∈ term.children, tree.Shows child) (types : HasTypes term) :
    tree.FitsTypes (tree.kind term.ref) := by
  have depicts : tree.Depicts (tree.kind term.ref) term.kind := shows.depicts
  have isType {child : Outline} (inside : child ∈ term.children) (isType : child.kind.isType) :
      tree.IsType child.ref := (below child inside).isType_iff.2 isType
  cases isKind : tree.kind term.ref <;> rw [isKind] at depicts
  case localDecl type range =>
    obtain ⟨child, declarators, form, rfl, -⟩ := depicts.localDecl
    rw [HasTypes, form] at types
    intro present
    cases child with
    | none => exact absurd rfl present
    | some child => exact isType (by simp [Term.children, form, parts]) (types child rfl)
  case typeRef name range rank =>
    obtain ⟨contents, form, slots⟩ := depicts.exists_contents
    simp only [Kind.slots, forall₂_holds_many, List.forall₂_nil_left_iff] at slots
    obtain ⟨arguments, _, rfl, items, stored, rfl⟩ := slots
    rw [HasTypes, form] at types
    refine ⟨stored, fun ref member => ?_⟩
    rw [items, List.mem_map] at member
    obtain ⟨argument, inside, rfl⟩ := member
    have isChild : argument ∈ term.children := by
      rw [Term.children, form]
      simpa [Kind.withSlots, parts] using inside
    exact isType isChild (types argument inside)
  all_goals trivial

/-- The types of the tree of a source text are formed. -/
theorem typesFormed_of_parse {clock : Nat} {source : String} {tree : Tree}
    (parsed : Tree.parse clock source = .ok tree) : tree.TypesFormed := by
  obtain ⟨term, outline, read, program, records, numbered⟩ := exists_numbered_of_parse parsed
  have types : outline.All HasTypes := by
    have sound := (SourceTerm.readable_of_parse read).sound
    rw [← records, shape_map, Term.shape, all_map_iff] at sound
    exact sound.mono fun part isSound => hasTypes_of_isFormed isSound.formed
  intro ref
  by_cases stored : tree.HasRef ref
  · have within : ref ∈ outline.postorder := by
      obtain ⟨number, inside, rfl⟩ := stored
      rw [numbered]
      exact List.mem_map_of_mem (List.mem_range.2 inside)
    obtain ⟨part, inside, rfl⟩ := mem_refs.1 ((evaluation_refs outline).mem_iff.1 within)
    refine (program.stands.shows inside).fitsTypes (fun child isChild => ?_)
      (all_iff_subterms.1 types part inside)
    exact program.stands.shows (subterms_child inside isChild)
  · have isNull : tree.kind ref = .null := by
      by_contra other
      exact stored (hasRef_of_kind_ne other)
    rw [isNull]
    trivial

end Tree

end Refactory
