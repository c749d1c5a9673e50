import Refactory.Proofs.Model.Scopes
import Refactory.Proofs.Tree.Renaming

/-!
# The sorts of nodes

Each child position is for children of some sorts (`Kind.childSorts`). In a program that was read
from a text every node has children of the right sorts (`Term.InPlace`). Such a program stays one
when a part gets the place of a part of the same sort (`Term.all_inPlace_swap`).
-/
namespace Refactory

variable {sorts : List NodeSort} {β : Type}

/-- The sorts of nodes. -/
inductive NodeSort where
  /-- A whole program. -/
  | unit
  /-- A statement or a method. -/
  | statement
  /-- An expression. -/
  | expression
  /-- An argument of a call. -/
  | argument
  /-- A parameter. -/
  | param
  /-- A declarator. -/
  | declarator
  /-- A type. -/
  | type
deriving DecidableEq

namespace Kind

variable {one many one' many' : Type}

/-- The sort of a node of the kind. -/
def sort : Kind one many → NodeSort
  | .unit _ => .unit
  | .method _ _ _ _ | .block _ | .localDecl _ _ | .exprStmt _ | .returnStmt _ | .ifStmt
    _ _ _ | .whileLoop _ _
  | .forLoop _ _ _ _ _ | .forEach _ _ _ _ => .statement
  | .param _ _ => .param
  | .typeRef _ _ _ => .type
  | .declarator _ _ => .declarator
  | .argument _ _ => .argument
  | _ => .expression

/-- The sorts of children in each child position. -/
def childSorts : Kind one many → List (List NodeSort)
  | .unit _ | .block _ => [[.statement]]
  | .method _ _ _ _ => [[.type], [.param], [.statement]]
  | .param _ _ | .typeRef _ _ _ => [[.type]]
  | .localDecl _ _ => [[.type], [.declarator]]
  | .ifStmt _ _ _ => [[.expression], [.statement], [.statement]]
  | .whileLoop _ _ => [[.expression], [.statement]]
  | .forLoop _ _ _ _ _ => [[.statement], [.expression], [.expression], [.expression], [.statement]]
  | .forEach _ _ _ _ => [[.type], [.expression], [.statement]]
  | .invoke _ _ => [[.expression], [.argument]]
  | .index _ _ | .binary _ _ _ | .assign _ _ _ => [[.expression], [.expression]]
  | .lambda _ _ _ => [[.param], [.expression, .statement]]
  | .declarator _ _ | .exprStmt _ | .returnStmt _ | .member _ _ _ | .argument _ _ | .unary
    _ _ | .paren _ =>
    [[.expression]]
  | .int _ | .str _ | .bool _ | .null | .ident _ => []

theorem sort_of_skeleton {kind : Kind one many} {other : Kind one' many'}
    (same : kind.skeleton = other.skeleton) : kind.sort = other.sort :=
  eq_of_skeleton (fun kind => kind.sort) (fun kind => by cases kind <;> rfl) same

theorem childSorts_of_skeleton {kind : Kind one many} {other : Kind one' many'}
    (same : kind.skeleton = other.skeleton) : kind.childSorts = other.childSorts :=
  eq_of_skeleton (fun kind => kind.childSorts) (fun kind => by cases kind <;> rfl) same

end Kind

namespace Term

variable {α : Type} {term child : Term α}

/-- The terms in a child position are of some sorts. -/
def Fits (slot : Slot (Option (Term α)) (List (Term α))) (sorts : List NodeSort) : Prop :=
  ∀ child ∈ slot.terms, child.kind.sort ∈ sorts

instance (slot : Slot (Option (Term α)) (List (Term α)))
    (sorts : List NodeSort) : Decidable (Fits slot sorts) :=
  inferInstanceAs (Decidable (∀ child ∈ slot.terms, child.kind.sort ∈ sorts))

/-- The children of a node are of the right sorts. -/
structure InPlace (term : Term α) : Prop where
  /-- Each child position holds children of its sorts. -/
  sorts : List.Forall₂ Fits term.kind.slots term.kind.childSorts

theorem fits_one {child : Option (Term α)} :
    Fits (.one child) sorts ↔ ∀ term ∈ child, term.kind.sort ∈ sorts := by simp [Fits]

theorem fits_many {children : List (Term α)} :
    Fits (.many children) sorts ↔ ∀ term ∈ children, term.kind.sort ∈ sorts := Iff.rfl

/-- What stands in a list corresponds to something at its place in the other. -/
theorem exists_zip_of_mem {γ : Type} {related : β → γ → Prop} {left : List β} {right : List γ}
    {here : β}
    (pairs : List.Forall₂ related left right) (member : here ∈ left) :
    ∃ there, (here, there) ∈ left.zip right ∧ related here there := by
  induction pairs with
  | nil => cases member
  | cons first _ ih =>
    rcases List.mem_cons.1 member with rfl | member
    · exact ⟨_, .head _, first⟩
    · obtain ⟨there, paired, holds⟩ := ih member
      exact ⟨there, .tail _ paired, holds⟩

/-- The sort of a child is one of those in the child positions. -/
theorem InPlace.sort_mem_flatten {note : α} {form : Form α} {child : Term α}
    (inPlace : InPlace (.node note form))
    (held : child ∈ parts form) : child.kind.sort ∈ form.childSorts.flatten := by
  obtain ⟨slot, member, inside⟩ := mem_parts.1 held
  obtain ⟨sorts, paired, fits⟩ := exists_zip_of_mem inPlace.sorts member
  exact List.mem_flatten.2 ⟨sorts, (List.of_mem_zip paired).2, fits child inside⟩

/-- Names mean something in statements, expressions and arguments. -/
theorem hasNames_of_kind_sort {kind : Form α} (sort : kind.sort ∈ sorts)
    (among : sorts ⊆ [.statement, .expression, .argument]) : kind.hasNames := by
  have sort := among sort
  cases kind <;> first | rfl | simp [Kind.sort] at sort

/-- A node whose children are of the right sorts has parameters, declarators and types in their
places only. -/
theorem InPlace.hasSorts (inPlace : InPlace term) : HasSorts term := by
  have named {kind : Form α} {sorts : List NodeSort} (sort : kind.sort ∈ sorts)
      (among : sorts ⊆ [.statement, .expression, .argument]) : kind.hasNames :=
    hasNames_of_kind_sort sort among
  have type {kind : Form α} (sort : kind.sort ∈ [NodeSort.type]) : kind.isType := by
    cases kind <;> first | rfl | simp [Kind.sort] at sort
  have param {kind : Form α} (sort : kind.sort ∈ [NodeSort.param]) : kind.isParam := by
    cases kind <;> first | rfl | simp [Kind.sort] at sort
  have declarator {kind : Form α}
      (sort : kind.sort ∈ [NodeSort.declarator]) : kind.isDeclarator := by
    cases kind <;> first | rfl | simp [Kind.sort] at sort
  have sorts := inPlace.sorts
  rcases term with ⟨note, form⟩
  rw [HasSorts]
  cases form <;>
    simp only [kind, Kind.slots, Kind.childSorts, List.forall₂_cons, fits_one, fits_many] at sorts ⊢
  case method =>
    obtain ⟨isType, areParams, isBody, -⟩ := sorts
    exact ⟨fun inner held => type (isType inner held), fun inner held =>
      param (areParams inner held), fun inner held => named (isBody inner held) (by simp)⟩
  case param => exact fun inner held => type (sorts.1 inner held)
  case typeRef => exact fun inner held => type (sorts.1 inner held)
  case localDecl =>
    exact ⟨fun inner held => type (sorts.1 inner held), fun inner held =>
      declarator (sorts.2.1 inner held)⟩
  case forEach =>
    obtain ⟨isType, isCollection, isBody, -⟩ := sorts
    exact ⟨fun inner held => type (isType inner held), fun inner held => named
      (isCollection inner held) (by simp), fun inner held => named (isBody inner held) (by simp)⟩
  case lambda =>
    exact ⟨fun inner held => param (sorts.1 inner held), fun inner held =>
      named (sorts.2.1 inner held) (by simp)⟩
  -- In all other nodes names mean something in all children.
  all_goals
    intro child inside
    simp only [parts, Kind.slots, List.flatMap_cons, List.flatMap_nil, Slot.terms, List.append_nil,
      List.mem_append, Option.mem_toList, List.not_mem_nil] at inside
  case unit | block | declarator | exprStmt | returnStmt | member | argument | unary | paren =>
    exact named (sorts.1 child inside) (by simp)
  case whileLoop | invoke | index | binary | assign =>
    obtain ⟨first, second, -⟩ := sorts
    exact inside.elim (fun held => named (first child held) (by simp)) fun held =>
      named (second child held) (by simp)
  case ifStmt =>
    obtain ⟨condition, thenBranch, elseBranch, -⟩ := sorts
    rcases inside with held | held | held
    · exact named (condition child held) (by simp)
    · exact named (thenBranch child held) (by simp)
    · exact named (elseBranch child held) (by simp)
  case forLoop =>
    obtain ⟨declaration, initializers, condition, incrementors, body, -⟩ := sorts
    rcases inside with held | held | held | held | held
    · exact named (declaration child held) (by simp)
    · exact named (initializers child held) (by simp)
    · exact named (condition child held) (by simp)
    · exact named (incrementors child held) (by simp)
    · exact named (body child held) (by simp)

/-- A term has its children in their places where its shape is formed as the grammar says. -/
theorem inPlace_of_isFormed {spelling : Spelling} {term : Term α}
    (formed : Shape.IsFormed spelling term.shape) : InPlace term := by
  have of_kind {sort : Shape → Bool} {sorts : List NodeSort}
      (among : ∀ form, sort (.node () form) → form.sort ∈ sorts) (term : Term α)
      (sorted : sort term.shape) :
      term.kind.sort ∈ sorts := by
    rw [Kind.sort_of_skeleton term.skeleton_shape.symm]
    rcases term with ⟨note, form⟩
    rw [shape_node] at sorted ⊢
    exact among _ sorted
  have type := @of_kind Shape.isType [.type] fun form sort => by
    cases form <;> first | exact List.mem_singleton_self _ | cases sort
  have typed := @of_kind Shape.isTypedParam [.param] fun form sort => by
    cases form <;> first | exact List.mem_singleton_self _ | cases sort
  have bare := @of_kind Shape.isBareParam [.param] fun form sort => by
    cases form <;> first | exact List.mem_singleton_self _ | cases sort
  have declarator := @of_kind Shape.isDeclarator [.declarator] fun form sort => by
    cases form <;> first | exact List.mem_singleton_self _ | cases sort
  have expression := @of_kind Shape.isExpression [.expression] fun form sort => by
    cases form <;> first | exact List.mem_singleton_self _ | cases sort
  have statement := @of_kind Shape.isStatement [.statement] fun form sort => by
    cases form <;> first | exact List.mem_singleton_self _ | cases sort
  have member := @of_kind Shape.isMember [.statement] fun form sort => by
    cases form <;> first | exact List.mem_singleton_self _ | cases sort
  have declaration := @of_kind Shape.isDeclaration [.statement] fun form sort => by
    cases form <;> first | exact List.mem_singleton_self _ | cases sort
  have block := @of_kind Shape.isBlock [.statement] fun form sort => by
    cases form <;> first | exact List.mem_singleton_self _ | cases sort
  have argument := @of_kind Shape.isArgument [.argument] fun form sort => by
    cases form <;> first | exact List.mem_singleton_self _ | cases sort
  have operand (least : Nat) (term : Term α) (sort : Shape.isOperand least term.shape) :
      term.kind.sort ∈ [NodeSort.expression] := expression term (Bool.and_eq_true_iff.1 sort).1
  have lambda := @of_kind Shape.isLambda [.expression] fun form sort => by
    cases form <;> first | exact List.mem_singleton_self _ | cases sort
  rcases term with ⟨note, form⟩
  cases form <;> rw [shape, map, mapForm] at formed <;>
    simp only [mapSome_eq, mapAll_eq, Shape.IsFormed] at formed <;>
    refine ⟨?_⟩
  all_goals simp only [kind, Kind.slots, Kind.childSorts, List.forall₂_cons, fits_one, fits_many,
    List.forall₂_nil_left_iff, and_true]
  case method =>
    exact ⟨of_needed_shape type formed.1, of_all_shape typed formed.2.2.1,
      of_needed_shape block formed.2.2.2⟩
  case param => exact of_optional_shape type formed.1
  case typeRef => exact of_all_shape type formed.2.1
  case localDecl => exact ⟨of_needed_shape type formed.1, of_all_shape declarator formed.2.2⟩
  case forEach =>
    exact ⟨of_needed_shape type formed.1, of_needed_shape expression formed.2.2.1,
      of_needed_shape statement formed.2.2.2⟩
  case lambda =>
    refine ⟨of_all_shape bare formed.1,
      @of_needed_shape α _ (fun inner => inner.kind.sort ∈ [.expression, .statement])
        (fun term sort => ?_) _ formed.2.2⟩
    rcases Bool.or_eq_true_iff.1 sort with isBlock | isExpression
    · exact .tail _ (block term isBlock)
    · exact List.mem_cons.2 (.inl (List.mem_singleton.1 (expression term isExpression)))
  case unit => exact of_all_shape member formed
  case block => exact of_all_shape statement formed
  case declarator => exact of_optional_shape expression formed.2
  case exprStmt | argument | paren => exact of_needed_shape expression formed
  case returnStmt => exact of_optional_shape expression formed
  case unary => exact of_needed_shape (operand _) formed
  case member => exact of_needed_shape (operand _) formed.1
  case ifStmt =>
    exact ⟨of_needed_shape expression formed.1, of_needed_shape statement formed.2.1,
      of_optional_shape statement formed.2.2.1⟩
  case whileLoop => exact ⟨of_needed_shape expression formed.1, of_needed_shape statement formed.2⟩
  case forLoop =>
    obtain ⟨isDeclaration, -, initializers, condition, incrementors, isBody⟩ := formed
    exact ⟨of_optional_shape declaration isDeclaration, of_all_shape expression initializers,
      of_optional_shape expression condition, of_all_shape expression incrementors,
      of_needed_shape statement isBody⟩
  case invoke => exact ⟨of_needed_shape (operand _) formed.1, of_all_shape argument formed.2⟩
  case index => exact ⟨of_needed_shape (operand _) formed.1, of_all_shape expression formed.2.2⟩
  case assign =>
    exact ⟨@of_needed_shape α _ (fun inner => inner.kind.sort ∈ [.expression])
      (fun term sort => operand _ term (Bool.and_eq_true_iff.1 sort).1) _ formed.1,
      of_needed_shape expression formed.2⟩
  case binary =>
    split at formed
    · exact ⟨of_needed_shape (operand _) formed.1,
        @of_needed_shape α _ (fun inner => inner.kind.sort ∈ [.expression]) (fun term sort =>
        (Bool.or_eq_true_iff.1 sort).elim (operand _ term) (lambda term)) _ formed.2⟩
    · exact ⟨of_needed_shape (operand _) formed.1, of_needed_shape (operand _) formed.2⟩

/-- A node is in place when its children are and are of the right sorts. -/
theorem all_inPlace_of_form {term : Outline} {form : Form Place} (isForm : term.kind = form)
    (fits : List.Forall₂ Fits form.slots form.childSorts)
    (children : ∀ child ∈ parts form, child.All InPlace) :
    term.All InPlace := by
  refine .intro ⟨by rwa [isForm]⟩ fun child held => children child ?_
  rwa [Term.children, isForm] at held

theorem all_inPlace_typeRef (place : Place)
    (name : String) : (node place (.typeRef name [] 0)).All InPlace :=
  @all_inPlace_of_form (node place (.typeRef name [] 0)) (.typeRef name [] 0) rfl
    (.cons (fits_many.2 (by simp)) .nil)
    (by simp [parts])

section

variable {whole part new : Outline}

theorem terms_mapSlot (f : Term α → Term β) (slot : Slot (Option (Term α)) (List (Term α))) :
    (mapSlot f slot).terms = slot.terms.map f := by
  cases slot with
  | one child => exact Option.toList_map
  | many children => rfl

/-- Whether a node is in place has nothing to do with the notes. -/
theorem inPlace_map_iff (f : α → β) (term : Term α) : InPlace (term.map f) ↔ InPlace term := by
  rcases term with ⟨note, form⟩
  have isForm : (Term.map f (.node note form)).kind = mapChildren (map f) form := by
    rw [map, mapForm_eq]
    rfl
  have sort (inner : Term α) : (inner.map f).kind.sort = inner.kind.sort := by
    rcases inner with ⟨note, form⟩
    rw [map, mapForm_eq]
    exact Kind.sort_of_skeleton (Kind.skeleton_withSlots _ _ _ _)
  have fits : List.Forall₂ Fits (Term.map f (.node note form)).kind.slots
      (Term.map f (.node note form)).kind.childSorts ↔
      List.Forall₂ Fits form.slots form.childSorts := by
    have same : (mapChildren (map f) form).skeleton = form.skeleton :=
      Kind.skeleton_withSlots _ _ _ _
    rw [isForm, slots_mapChildren, Kind.childSorts_of_skeleton same, List.forall₂_map_left_iff]
    simp only [Fits, terms_mapSlot, List.forall_mem_map, sort]
    rfl
  exact ⟨fun inPlace => ⟨fits.1 inPlace.sorts⟩, fun inPlace => ⟨fits.2 inPlace.sorts⟩⟩

/-- The sort of a term is that of its shape. -/
theorem sort_shape (term : Term α) : term.shape.kind.sort = term.kind.sort :=
  Kind.sort_of_skeleton term.skeleton_shape

/-- A term is in place when its shape is. -/
theorem all_inPlace_shape_iff {term : Term α} : term.shape.All InPlace ↔ term.All InPlace :=
  ⟨fun all => (all_map_iff.1 all).mono fun part => (inPlace_map_iff _ part).1,
    fun all => all_map_iff.2 (all.mono fun part => (inPlace_map_iff _ part).2)⟩

/-- Terms of one shape are in place together. -/
theorem all_inPlace_of_shape {term : Term α} {other : Term β} (same : other.shape = term.shape)
    (all : term.All InPlace) : other.All InPlace := by
  rw [← all_inPlace_shape_iff, same]
  exact all_inPlace_shape_iff.2 all

/-- There are only types below a parameter or a type. -/
theorem sort_of_mem_param {term part : Term α} (inPlace : term.All InPlace)
    (sort : term.kind.sort ∈ [NodeSort.param, .type]) (inside : part ∈ term.subterms) :
    part.kind.sort ∈ [NodeSort.param, .type] := by
  induction term using Term.induction with
  | step note form ih =>
    rw [subterms_node] at inside
    rcases List.mem_cons.1 inside with rfl | inside
    · exact sort
    obtain ⟨child, held, inside⟩ := List.mem_flatMap.1 inside
    have isType := inPlace.here.sort_mem_flatten held
    refine ih child held (inPlace.child held) (List.mem_cons_of_mem _ ?_) inside
    cases form <;> simp_all [kind, Kind.sort, Kind.childSorts]

/-- A node whose children stay in number and sort keeps them in their places. -/
theorem inPlace_mapChildren {old new : Term α → Term β} {note note' : β} {form : Form α}
    (inPlace : InPlace (.node note (mapChildren old form)))
    (unchanged : ∀ child ∈ parts form, (new child).kind.sort = (old child).kind.sort) :
    InPlace (.node note' (mapChildren new form)) := by
  have fits := inPlace.sorts
  have same (f : Term α → Term β) : (mapChildren f form).skeleton = form.skeleton :=
    Kind.skeleton_withSlots _ _ _ _
  rw [kind, Kind.childSorts_of_skeleton (same old), slots_mapChildren,
    List.forall₂_map_left_iff] at fits
  refine ⟨?_⟩
  rw [kind, Kind.childSorts_of_skeleton (same new), slots_mapChildren, List.forall₂_map_left_iff]
  have within : ∀ slot ∈ form.slots, ∀ child ∈ slot.terms, child ∈ parts form :=
    fun slot member child held =>
    mem_parts.2 ⟨slot, member, held⟩
  refine ((List.forall₂_and_left _ _).2 ⟨within, fits⟩).imp fun slot sorts both child held => ?_
  obtain ⟨inside, fits⟩ := both
  rw [terms_mapSlot] at held
  obtain ⟨child, isChild, rfl⟩ := List.mem_map.1 held
  rw [unchanged child (inside child isChild)]
  exact fits (old child) (terms_mapSlot old slot ▸ List.mem_map_of_mem isChild)

/-- So does one whose children are changed. -/
theorem InPlace.mapChildren {f : Outline → Outline} {place : Place} {form : Form Place}
    (inPlace : InPlace (node place form))
    (unchanged : ∀ child ∈ parts form, (f child).kind.sort = child.kind.sort) :
    InPlace (node place (Term.mapChildren f form)) :=
  inPlace_mapChildren ((mapChildren_id form).symm ▸ inPlace) unchanged

/-- Children are in their places where a part gets another one of its sort. -/
theorem all_inPlace_swap (once : whole.refs.Nodup) (within : part ∈ whole.subterms)
    (all : whole.All InPlace)
    (allNew : new.All InPlace) (same : new.kind.sort = part.kind.sort) :
    (swap part.ref new whole).All InPlace := by
  refine @around_induction whole part (fun other => other.All InPlace →
      (∀ inner ∈ other.subterms, inner.ref = part.ref → inner = part) →
      (swap part.ref new other).All InPlace) once within (fun _ _ => by rwa [swap_self])
    (fun other apart all _ => ?_) (fun place form outside ih all unique => ?_)
    all fun inner inside same => subterm_unique once inside within same
  · rwa [swap_of_not_mem (apart (ref_mem_refs part))]
  · have above : place.ref ≠ part.ref := fun same => outside (same ▸ ref_mem_refs part)
    have below {child : Outline} (held : child ∈ parts form) :=
      unique child (mem_subterms_of_child held (self_mem_subterms child))
    rw [swap_node, if_neg above]
    refine All.node_iff.2 ⟨all.here.mapChildren fun child held => ?_, ?_⟩
    · by_cases here : child.ref = part.ref
      · rw [below held here, swap_self, same]
      · rw [kind_swap_of_ne here]
        exact Kind.sort_of_skeleton (Kind.skeleton_withSlots _ _ _ _)
    · intro child held
      rw [parts_mapChildren] at held
      obtain ⟨old, inside, rfl⟩ := List.mem_map.1 held
      exact ih old inside (all.child inside) fun inner below =>
        unique inner (mem_subterms_of_child inside below)

end

end Term

end Refactory
