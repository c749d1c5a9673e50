import Refactory.Proofs.Code.Placing
import Refactory.Proofs.Grammar.Grade
import Refactory.Proofs.Tree.Replacing

/-!
# Exchanging parts of a program

What a grade asks of the nodes of a program it still asks when parts are exchanged for others that
serve in their places (`Term.supplants_of_each`): a part gets the place of another one
(`Term.supplants_swap`), expressions come in the place of all parts that pass a test
(`Term.supplants_shapePutting`), and a statement becomes several ones (`Tree.Becomes.upholds`).
-/
namespace Refactory

namespace Shape

variable {grade : Grade} {shape new old : Shape}

/-- A shape that is as a grade asks may stand wherever another one does. -/
structure Supplants (grade : Grade) (new old : Shape) : Prop where
  /-- It is as the grade asks. -/
  upholds : Upholds grade new
  /-- It serves for the other one. -/
  serves : Serves grade new old
  /-- Where a receiver must hold together, it does so as tightly. -/
  level : grade = .formed → level old ≤ level new

namespace Supplants

theorem refl (upholds : Upholds grade shape) : Supplants grade shape shape :=
  ⟨upholds, .refl grade shape, fun _ => Nat.le_refl _⟩

theorem trans {first second third : Shape} (left : Supplants grade first second)
    (right : Supplants grade second third) : Supplants grade first third :=
  ⟨left.upholds, left.serves.trans right.serves, fun formed =>
    Nat.le_trans (right.level formed) (left.level formed)⟩

end Supplants

/-- Tight expressions may stand in the places of each other. -/
theorem IsTight.supplants (tight : IsTight new) (tightOld : IsTight old)
    (upholds : Upholds grade new) :
    Supplants grade new old :=
  ⟨upholds, tight.isCompact.serves grade tightOld.isCompact, fun _ =>
    Nat.le_of_eq (tightOld.level.trans tight.level.symm)⟩

/-- An argument may pass something else. -/
theorem supplants_argument {note note' : Unit} {modifier : Modifier} {child other : Option Shape}
    (upholds : Upholds grade (.node note (.argument modifier child))) :
    Supplants grade (.node note (.argument modifier child))
    (.node note' (.argument modifier other)) := by
  refine ⟨upholds, ?_, fun _ => Nat.le_refl _⟩
  cases grade with
  | sorted => exact ⟨rfl, id, id⟩
  | formed => exact ⟨by constructor <;> rfl, Nat.min_le_left _ _, id, id, id, id⟩

/-- A node holds together as tightly as one with other children. -/
theorem level_mapChildren {α : Type} (old new : Term α → Shape) (note note' : Unit)
    (form : Term.Form α) :
    Shape.level (.node note' (Term.mapChildren new form)) =
    Shape.level (.node note (Term.mapChildren old form)) := by
  cases form <;> rfl

/-- A shape is another one, or it is a block and the other one a statement that is none. -/
def Blocks (new old : Shape) : Prop :=
    new = old ∨ isBlock new = true ∧ isStatement old = true ∧ isBlock old = false

namespace Blocks

/-- Only statements that are no blocks become something else. -/
theorem eq (blocks : Blocks new old) (plain : isStatement old = false ∨ isBlock old = true) :
    new = old := by
  rcases blocks with same | ⟨-, isStatement, noBlock⟩
  · exact same
  · rw [isStatement, noBlock] at plain
    simp at plain

/-- What is no statement stays what it is. -/
theorem keeps {sort : Shape → Bool} (blocks : Blocks new old)
    (plain : ∀ shape, sort shape = true → isStatement shape = false)
    (known : sort old = true) : sort new = true :=
  blocks.eq (.inl (plain old known)) ▸ known

theorem isStatement (blocks : Blocks new old) (known : isStatement old = true) :
    isStatement new = true := by
  rcases blocks with rfl | ⟨isBlock, -, -⟩
  · exact known
  · exact (closed_of_isBlock isBlock).1

theorem endsOpenIf (blocks : Blocks new old) (known : endsOpenIf new = true) :
    endsOpenIf old = true := by
  rcases blocks with rfl | ⟨isBlock, -, -⟩
  · exact known
  · rw [(closed_of_isBlock isBlock).2] at known
    cases known

end Blocks

theorem not_isStatement_of_isType (shape : Shape)
    (isType : isType shape = true) : isStatement shape = false :=
  not_isStatement_of_sort (by decide : NodeSort.type ≠ .statement) (isType_iff_sort.1 isType)

theorem not_isStatement_of_isExpression (shape : Shape) (isExpression : isExpression shape = true) :
    isStatement shape = false :=
  not_isStatement_of_sort (by decide : NodeSort.expression ≠ .statement)
    (isExpression_iff_sort.1 isExpression)

theorem not_isStatement_of_isTypedParam (shape : Shape) (typed : isTypedParam shape = true) :
    isStatement shape = false := by
  rcases shape with ⟨note, form⟩
  cases form <;> first | rfl | cases typed

theorem not_isStatement_of_isBareParam (shape : Shape) (bare : isBareParam shape = true) :
    isStatement shape = false := by
  rcases shape with ⟨note, form⟩
  cases form <;> first | rfl | cases bare

section

variable {α : Type} {old new : Term α → Shape} {note note' : Unit} {form : Term.Form α}

/-- A statement with other children fits in the place of one if nothing that follows runs into it
that did not before. -/
theorem fits_statement (isStatement : form.sort = .statement)
    (closed : endsOpenIf (.node note' (Term.mapChildren new form)) = true →
      endsOpenIf (.node note (Term.mapChildren old form)) = true) :
    Fits (.node note' (Term.mapChildren new form)) (.node note (Term.mapChildren old form)) := by
  refine ⟨.mapChildren old new form, ?_, ?_, ?_, closed, ?_⟩
  · exact Nat.le_trans (Nat.min_le_left _ _)
      (Nat.le_of_eq (level_mapChildren old new note note' form).symm)
  all_goals cases form <;> first | exact id | cases isStatement

/-- The children are of sorts that there are below a node of that form. -/
theorem Meets.sort_mem_childSorts (meets : Meets grade (.node note (Term.mapChildren old form)))
    {child : Term α}
    (held : child ∈ Term.parts form) : (old child).kind.sort ∈ form.childSorts.flatten := by
  rw [← Kind.childSorts_of_skeleton
    (Kind.skeleton_withSlots _ _ _ _ : (Term.mapChildren old form).skeleton = form.skeleton)]
  refine meets.isSeated.inPlace.sort_mem_flatten ?_
  rw [Term.parts_mapChildren]
  exact List.mem_map_of_mem held

/-- Where no statement becomes a block, nothing changes. -/
theorem meets_of_plain (meets : Meets .formed (.node note (Term.mapChildren old form)))
    (each : ∀ child ∈ Term.parts form, Blocks (new child) (old child))
    (plain : ∀ child ∈ Term.parts form, isStatement (old child) = false ∨
      isBlock (old child) = true) :
    Meets .formed (.node note' (Term.mapChildren new form)) ∧
      Fits (.node note' (Term.mapChildren new form)) (.node note (Term.mapChildren old form)) := by
  have same : Term.mapChildren new form = Term.mapChildren old form :=
    Term.mapChildren_congr fun child held => (each child held).eq (plain child held)
  rw [same]
  exact ⟨meets, .refl _⟩

/-- A statement outside of lists and headers of loops may become a block. -/
theorem meets_of_blocks (meets : Meets .formed (.node note (Term.mapChildren old form)))
    (unlisted : form.isList = false)
    (header : ∀ declaration initializers condition incrementors body,
      form = .forLoop (some declaration) initializers condition incrementors body →
        new declaration = old declaration)
    (each : ∀ child ∈ Term.parts form, Blocks (new child) (old child)) :
    Meets .formed (.node note' (Term.mapChildren new form)) ∧
      Fits (.node note' (Term.mapChildren new form)) (.node note (Term.mapChildren old form)) := by
  have formed := meets.1
  have unchanged := @meets_of_plain _ _ _ _ note' _ meets each
  have expression (child : Term α) (held : child ∈ Term.parts form)
      (known : isExpression (old child) = true) :
      isExpression (new child) = true :=
    (each child held).keeps not_isStatement_of_isExpression known
  cases form with
  | unit members => cases unlisted
  | block statements => cases unlisted
  | ifStmt condition thenBranch elseBranch =>
    obtain ⟨isCondition, isThen, isElse, closing⟩ := formed
    refine ⟨⟨⟨any_map_of ?_ isCondition, any_map_of ?_ isThen, all_map_of ?_ isElse, fun present =>
      all_map_of ?_ (closing (by simpa using present))⟩, id⟩, fits_statement rfl ?_⟩
    · exact fun term member => expression term (by simp [member])
    · exact fun term member => (each term (by simp [member])).isStatement
    · exact fun term member => (each term (by simp [member])).isStatement
    · intro term member known
      have := (each term (by simp [member])).endsOpenIf
      grind
    · cases elseBranch with
      | none => exact id
      | some elseBranch => exact (each elseBranch (by simp)).endsOpenIf
  | whileLoop condition body =>
    refine ⟨⟨⟨any_map_of ?_ formed.1, any_map_of ?_ formed.2⟩, id⟩, fits_statement rfl ?_⟩
    · exact fun term member => expression term (by simp [member])
    · exact fun term member => (each term (by simp [member])).isStatement
    · cases body with
      | none => exact id
      | some body => exact (each body (by simp)).endsOpenIf
  | forLoop declaration initializers condition incrementors body =>
    obtain ⟨declares, single, areInitializers, isCondition, areSteps, isBody⟩ := formed
    refine ⟨⟨⟨all_map_of ?_ declares, fun present => ?_, listAll_map_of ?_ areInitializers,
      all_map_of ?_ isCondition, listAll_map_of ?_ areSteps, any_map_of ?_ isBody⟩, id⟩,
      fits_statement rfl ?_⟩
    · rintro term rfl known
      rwa [header term _ _ _ _ rfl]
    · simpa using single (by simpa using present)
    · exact fun term member => expression term (by simp [member])
    · exact fun term member => expression term (by simp [member])
    · exact fun term member => expression term (by simp [member])
    · exact fun term member => (each term (by simp [member])).isStatement
    · cases body with
      | none => exact id
      | some body => exact (each body (by simp)).endsOpenIf
  | forEach type name collection body =>
    obtain ⟨isTyped, isName, isCollection, isBody⟩ := formed
    refine ⟨⟨⟨any_map_of ?_ isTyped, isName, any_map_of ?_ isCollection, any_map_of ?_ isBody⟩, id⟩,
      fits_statement rfl ?_⟩
    · exact fun term member => (each term (by simp [member])).keeps not_isStatement_of_isType
    · exact fun term member => expression term (by simp [member])
    · exact fun term member => (each term (by simp [member])).isStatement
    · cases body with
      | none => exact id
      | some body => exact (each body (by simp)).endsOpenIf
  -- The body of a method is a block as it stands, and that of a lambda is one if it is a statement.
  | method result name params body =>
    obtain ⟨isResult, -, areParams, isBody⟩ := formed
    refine unchanged fun child held => ?_
    simp only [Term.mem_parts, Kind.slots, List.mem_cons, List.not_mem_nil, or_false,
      exists_eq_or_imp, exists_eq_left, Slot.terms, Option.mem_toList] at held
    rcases held with rfl | isParam | rfl
    · exact .inl (not_isStatement_of_isType _ isResult)
    · exact .inl (not_isStatement_of_isTypedParam
        _ (List.all_eq_true.1 areParams _ (List.mem_map_of_mem isParam)))
    · exact .inr isBody
  | lambda params body parenthesized =>
    obtain ⟨areParams, -, isBody⟩ := formed
    refine unchanged fun child held => ?_
    simp only [Term.mem_parts, Kind.slots, List.mem_cons, List.not_mem_nil, or_false,
      exists_eq_or_imp, exists_eq_left, Slot.terms, Option.mem_toList] at held
    rcases held with isParam | rfl
    · exact .inl (not_isStatement_of_isBareParam
        _ (List.all_eq_true.1 areParams _ (List.mem_map_of_mem isParam)))
    · exact (Bool.or_eq_true_iff.1 isBody).symm.imp_left (not_isStatement_of_isExpression _)
  | _ =>
    refine unchanged fun child held => .inl (Bool.eq_false_iff.2 fun isStatement => ?_)
    have sort := meets.sort_mem_childSorts held
    rw [sort_of_isStatement isStatement] at sort
    simp [Kind.childSorts] at sort

end

end Shape

namespace Term

open Shape

variable {α : Type} {grade : Grade} {term whole : Term α}

/-- The shape of a node is the node of the shapes of its children. -/
theorem shape_eq_mapChildren
    (term : Term α) : term.shape = .node () (mapChildren shape term.kind) := by
  rcases term with ⟨note, form⟩
  exact (shape_node note form).trans (congrArg _ (mapForm_eq _ form))

/-- What holds of a node and throughout its children, shape by shape, holds throughout its shape. -/
theorem all_shape_iff {property : Shape → Prop} :
    term.shape.All property ↔
    property term.shape ∧ ∀ child ∈ term.children, child.shape.All property := by
  rw [shape_eq_mapChildren, All.node_iff, parts_mapChildren, List.forall_mem_map]
  rfl

/-- The shape of a node of a form is the node of the shapes of its children. -/
theorem shape_of_kind {form : Form α}
    (isForm : term.kind = form) : term.shape = .node () (mapChildren shape form) :=
  isForm ▸ shape_eq_mapChildren term

/-- A node of a form is as a grade asks when the form is and the children are. -/
theorem upholds_iff_of_kind {form : Form α} (isForm : term.kind = form) : Upholds grade term.shape ↔
    Meets grade (.node () (mapChildren shape form)) ∧
    ∀ child ∈ parts form, Upholds grade child.shape := by
  rw [Upholds, all_shape_iff, shape_of_kind isForm, children, isForm]
  rfl

theorem upholds_node_iff {note : α} {form : Form α} : Upholds grade (node note form).shape ↔
    Meets grade (.node () (mapChildren shape form)) ∧
    ∀ child ∈ parts form, Upholds grade child.shape :=
  upholds_iff_of_kind rfl

/-- What holds of the node of a form holds of each node of that form. -/
theorem isTight_of_kind {form : Form α} (isForm : term.kind = form)
    (tight : IsTight (.node () (mapChildren shape form))) :
    IsTight term.shape :=
  shape_of_kind isForm ▸ tight

/-- What serves for a term is of its sort. -/
theorem sort_of_serves {new old : Term α} (serves : Serves grade new.shape old.shape) :
    new.kind.sort = old.kind.sort :=
  (sort_shape new).symm.trans (serves.suits.sort.trans (sort_shape old))

section

variable {f : Term α → Shape}

/-- Exchanging parts for others that serve in their places leaves a term as a grade asks it to be,
where no receiver comes to hold together too loosely. -/
theorem upholds_of_each (upholds : Upholds grade whole.shape) (each : ∀ part ∈ whole.subterms,
      f part = .node () (mapChildren f part.kind) ∧ (grade = .formed → ¬IsLoose (f part)) ∨
      Upholds grade (f part) ∧ Serves grade (f part) part.shape) :
    Upholds grade (f whole) ∧ Serves grade (f whole) whole.shape := by
  induction whole using Term.induction with
  | step note form ih =>
    rcases each _ (self_mem_subterms _) with ⟨same, tight⟩ | exchanged
    · obtain ⟨here, below⟩ := all_shape_iff.1 upholds
      have children := fun child held => ih child held (below child held) fun part inside =>
        each part (mem_subterms_of_child held inside)
      rw [shape_eq_mapChildren] at here ⊢
      rw [same] at tight ⊢
      have serves := fun child held => (children child held).2
      refine ⟨All.node_iff.2 ⟨meets_mapChildren serves here tight, ?_⟩, serves_mapChildren serves⟩
      rw [parts_mapChildren]
      exact List.forall_mem_map.2 fun child held => (children child held).1
    · exact exchanged

/-- A node with children that may stand where those of another one do may stand where this does. -/
theorem supplants_node {note : α} {form : Form α} (upholds : Upholds grade (node note form).shape)
    (each : ∀ child ∈ parts form, Supplants grade (f child) child.shape) :
    Supplants grade (.node () (mapChildren f form)) (node note form).shape := by
  obtain ⟨meets, -⟩ := upholds_node_iff.1 upholds
  rw [shape_of_kind (rfl : (node note form).kind = form)]
  have serves := fun child held => (each child held).serves
  refine ⟨All.node_iff.2 ⟨meets_mapChildren serves meets fun formed => ?_, ?_⟩,
    serves_mapChildren serves, fun _ => Nat.le_of_eq (level_mapChildren f shape () () form)⟩
  · subst formed
    exact not_isLoose_mapChildren meets.1 fun child held => (each child held).level rfl
  · rw [parts_mapChildren]
    exact List.forall_mem_map.2 fun child held => (each child held).upholds

/-- Where all that is exchanged holds together as tightly as before, so does every receiver. -/
theorem supplants_of_each (upholds : Upholds grade whole.shape) (each : ∀ part ∈ whole.subterms,
      f part = .node () (mapChildren f part.kind) ∨ Supplants grade (f part) part.shape) :
    Supplants grade (f whole) whole.shape := by
  induction whole using Term.induction with
  | step note form ih =>
    rcases each _ (self_mem_subterms _) with same | exchanged
    · rw [same]
      exact supplants_node upholds fun child held =>
        ih child held ((upholds_node_iff.1 upholds).2 child held)
        fun part inside => each part (mem_subterms_of_child held inside)
    · exact exchanged

end

section

variable {grade : Grade} {whole part new block : Outline}

/-- Shapes that may stand where the parts do in whose places they come leave a term as a grade asks
it to be. -/
theorem supplants_shapePutting {test : Ref → Bool} {put : Outline → Shape}
    (upholds : Upholds grade whole.shape)
    (puts : ∀ part ∈ whole.subterms, test part.ref = true → Supplants grade (put part) part.shape) :
    Supplants grade (whole.shapePutting test put) whole.shape := by
  refine supplants_of_each upholds fun part inside => ?_
  rcases part with ⟨place, form⟩
  rw [shapePutting_node]
  split
  · rename_i hit
    exact .inr (puts _ inside hit)
  · exact .inl rfl

/-- Terms that may stand where the topmost parts do that pass a test leave a term as a grade asks it
to be. -/
theorem supplants_replacing {test : Ref → Bool} {value : Outline → Outline} {moved : Ref → Ref}
    (upholds : Upholds grade whole.shape)
    (each : ∀ part ∈ whole.topmost test, Supplants grade (value part).shape part.shape) :
    Supplants grade (whole.replacing test value moved).shape whole.shape := by
  induction whole using Term.induction with
  | step place form ih =>
    rw [topmost_node] at each
    rw [replacing_node]
    split
    · rename_i hit
      rw [if_pos hit] at each
      exact each _ (.head _)
    · rename_i miss
      rw [if_neg miss] at each
      rw [shape_eq_mapChildren (.node _ (mapChildren _ form))]
      change Supplants grade (.node () (mapChildren shape (mapChildren _ form))) _
      rw [mapChildren_mapChildren]
      exact supplants_node upholds fun child held =>
        ih child held ((upholds_node_iff.1 upholds).2 child held) fun part inside =>
        each part (List.mem_flatMap.2 ⟨child, held, inside⟩)

/-- A part other than the one that is swapped is a node as before. -/
theorem shape_swap_of_ne (other : whole.ref ≠ part.ref) : (swap part.ref new whole).shape
    = .node () (mapChildren (fun child => (swap part.ref new child).shape) whole.kind) := by
  rw [shape_eq_mapChildren, kind_swap_of_ne other, mapChildren_mapChildren]
  rfl

/-- A part that serves in the place of another one leaves a term as a grade asks it to be, where it
is not too loose for a receiver. -/
theorem upholds_swap (once : whole.refs.Nodup) (within : part ∈ whole.subterms)
    (upholds : Upholds grade whole.shape)
    (upholdsNew : Upholds grade new.shape) (serves : Serves grade new.shape part.shape)
    (tight : grade = .formed → ∀ holder ∈ whole.subterms, part ∈ holder.children →
      ¬IsLoose (swap part.ref new holder).shape) :
    Upholds grade (swap part.ref new whole).shape ∧
    Serves grade (swap part.ref new whole).shape whole.shape := by
  refine @upholds_of_each _ grade whole (fun other => (swap part.ref new other).shape) upholds
    fun other inside => ?_
  by_cases here : other.ref = part.ref
  · obtain rfl := subterm_unique once inside within here
    rw [swap_self]
    exact .inr ⟨upholdsNew, serves⟩
  · refine .inl ⟨shape_swap_of_ne here, fun formed => ?_⟩
    by_cases held : part ∈ other.children
    · exact tight formed other inside held
    · have here' : Meets grade other.shape :=
        all_iff_subterms.1 (all_map_iff.1 upholds) other inside
      rw [formed, shape_eq_mapChildren] at here'
      rw [shape_swap_of_ne here]
      refine not_isLoose_mapChildren here'.1 fun child isChild => Nat.le_of_eq ?_
      have differs : child.ref ≠ part.ref := fun same =>
        held (subterm_unique once (subterms_child inside isChild) within same ▸ isChild)
      rw [shape_swap_of_ne differs, shape_eq_mapChildren child]
      exact level_mapChildren _ _ () () child.kind

/-- So does one that may stand wherever the other one does. -/
theorem supplants_swap (once : whole.refs.Nodup) (within : part ∈ whole.subterms)
    (upholds : Upholds grade whole.shape) (supplants : Supplants grade new.shape part.shape) :
    Supplants grade (swap part.ref new whole).shape whole.shape := by
  refine @supplants_of_each _ grade whole (fun other => (swap part.ref new other).shape) upholds
    fun other inside => ?_
  by_cases here : other.ref = part.ref
  · obtain rfl := subterm_unique once inside within here
    rw [swap_self]
    exact .inr supplants
  · exact .inl (shape_swap_of_ne here)

/-- A part of the same sort leaves the whole of the sort that it was. -/
theorem sort_swap (once : whole.refs.Nodup) (within : part ∈ whole.subterms)
    (same : new.kind.sort = part.kind.sort) :
    (swap part.ref new whole).kind.sort = whole.kind.sort := by
  by_cases here : whole.ref = part.ref
  · obtain rfl := subterm_unique once (self_mem_subterms whole) within here
    rwa [swap_self]
  · rw [kind_swap_of_ne here, Kind.sort_of_skeleton (skeleton_mapChildren _ _)]

/-- All parts of what is as a grade asks are as it asks. -/
theorem upholds_of_mem (upholds : Upholds grade whole.shape) (inside : part ∈ whole.subterms) :
    Upholds grade part.shape :=
  all_map_iff.2 ((all_map_iff.1 upholds).subterm inside)

/-- Swapping a child leaves the other children as they are. -/
theorem swap_of_sibling {holder other : Outline}
    (once : holder.refs.Nodup) (held : part ∈ holder.children) (heldOther : other ∈ holder.children)
    (differs : other ≠ part) : swap part.ref new other = other := by
  rw [refs_eq] at once
  refine swap_of_not_mem fun inside => ?_
  exact disjoint_of_nodup (List.nodup_cons.1 once).2 heldOther held differs inside
    (ref_mem_refs part)

/-- A statement outside of lists and headers of loops may become a block. -/
theorem upholds_swap_block (once : whole.refs.Nodup) (within : part ∈ whole.subterms)
    (below : part ≠ whole) (upholds : Upholds grade whole.shape) (isStep : IsStep grade part.shape)
    (noBlock : isBlock part.shape = false)
    (upholdsBlock : Upholds grade block.shape) (isBlock : isBlock block.shape = true)
    (unlisted : ∀ holder ∈ whole.subterms, part ∈ holder.children → holder.kind.isList = false)
    (header : grade = .formed →
      ∀ holder ∈ whole.subterms, ∀ initializers condition incrementors body,
      holder.kind ≠ .forLoop (some part) initializers condition incrementors body) :
    Upholds grade (swap part.ref block whole).shape := by
  cases grade with
  | sorted =>
    refine (upholds_swap once within upholds upholdsBlock
      ⟨?_, fun bare => ?_, fun _ => isBlock⟩ nofun).1
    · exact (sort_of_isStatement (closed_of_isBlock isBlock).1).trans isStep.1.symm
    · obtain ⟨name, isParam⟩ := isBareParam_iff.1 bare
      have sort := isStep.1
      rw [isParam] at sort
      cases sort
  | formed =>
    obtain ⟨⟨place, form⟩, inside, held⟩ := (exists_holder within).resolve_left below
    have onceHolder := once.sublist (refs_sublist inside)
    have other : (Term.node place form).ref ≠ part.ref :=
      ref_ne_of_child onceHolder held (self_mem_subterms part)
    have each (child : Outline)
        (isChild : child ∈ parts form) : child = part ∨ swap part.ref block child = child :=
      or_iff_not_imp_left.2 (swap_of_sibling onceHolder held isChild)
    obtain ⟨meets, below⟩ := all_shape_iff.1 (upholds_of_mem upholds inside)
    rw [shape_eq_mapChildren] at meets
    obtain ⟨meetsNew, fits⟩ :=
      @meets_of_blocks _ shape (fun child => (swap part.ref block child).shape) () () form
      meets (unlisted _ inside held)
        (fun declaration initializers condition incrementors body isLoop => by
        rcases each declaration (by simp [isLoop]) with rfl | same
        · exact absurd isLoop (header rfl _ inside _ _ _ _)
        · simp only [same]) fun child isChild => by
        rcases each child isChild with rfl | same
        · right
          simpa only [swap_self] using ⟨isBlock, isStep.2 rfl, noBlock⟩
        · exact .inl (by simp only [same])
    rw [swap_within once inside (child_mem_subterms held)]
    refine (supplants_swap once inside upholds ⟨?_, ?_, fun _ => ?_⟩).upholds <;>
      rw [shape_swap_of_ne other]
    · refine All.node_iff.2 ⟨meetsNew, ?_⟩
      rw [parts_mapChildren]
      refine List.forall_mem_map.2 fun child isChild => ?_
      rcases each child isChild with rfl | same
      · rwa [swap_self]
      · rw [same]
        exact below child isChild
    · rw [shape_eq_mapChildren (.node place form)]
      exact fits
    · rw [shape_eq_mapChildren (.node place form)]
      exact Nat.le_of_eq (level_mapChildren _ _ _ _ form)

/-- What is as a grade asks has its children in their places. -/
theorem inPlace_of_upholds (upholds : Upholds grade whole.shape) : whole.All InPlace :=
  (all_map_iff.1 upholds).mono fun part meets => (inPlace_map_iff _ part).1 meets.isSeated.inPlace

/-- Statements that are spliced in come into a list of statements. -/
theorem isList_of_fitsInto {holder : Outline} {statements : List Outline} (inPlace : InPlace holder)
    (held : part ∈ holder.children) (sort : part.kind.sort = .statement)
    (fits : ∀ content ∈ holder.kind.slots, FitsInto part.ref statements true content) :
    holder.kind.isList = true := by
  obtain ⟨slot, member, inside⟩ := mem_parts.1 held
  have single (child : Option Outline) : slot ≠ .one child := by
    rintro rfl
    obtain rfl := Option.mem_toList.1 inside
    exact Bool.noConfusion (fits _ member part rfl rfl).1
  obtain ⟨allowed, paired, fitsSlot⟩ := exists_zip_of_mem inPlace.sorts member
  have isAllowed : NodeSort.statement ∈ allowed := sort ▸ fitsSlot part inside
  rcases holder with ⟨place, form⟩
  change (slot, allowed) ∈ form.slots.zip form.childSorts at paired
  change form.isList = true
  cases form <;> simp only [Kind.slots, Kind.childSorts, List.zip_cons_cons, List.zip_nil_left,
    List.mem_cons, List.not_mem_nil, or_false, Prod.mk.injEq] at paired <;> grind [Kind.isList]

end

end Term

end Refactory
