import Refactory.Proofs.Tree.Navigation
import Refactory.Proofs.Tree.SourceTypes

/-!
# Scopes

What the scopes of a program are is said here of its tree, without a walk: which nodes open a scope
around which children, which scopes are around a node (`Tree.scopesAround`), in which scope a node
declares its name (`Tree.scopeOf?`), and which names a scope has from its start
(`Tree.DeclaresUpFront`).

In a program that was read from a text, parameters and declarators stand only where the walk over
the program looks for them, and there are no names inside types (`Term.HasSorts`).
-/
namespace Refactory

namespace Kind

variable {one many one' many' : Type}

/-- The name that a node of the kind declares. -/
def declaredName? : Kind one many → Option String
  | .declarator name _ | .param _ name | .forEach _ name _ _ => some name
  | _ => none

/-- Whether a node of the kind opens a scope around all of its children. -/
def opensScope : Kind one many → Bool
  | .unit _ | .method _ _ _ _ | .block _ | .forLoop _ _ _ _ _ | .lambda _ _ _ => true
  | _ => false

/-- Parameters. -/
def isParam : Kind one many → Bool
  | .param _ _ => true
  | _ => false

/-- Declarators. -/
def isDeclarator : Kind one many → Bool
  | .declarator _ _ => true
  | _ => false

/-- Loops over elements. -/
def isForEach : Kind one many → Bool
  | .forEach _ _ _ _ => true
  | _ => false

/-- Names that stand for a value. -/
def isIdent : Kind one many → Bool
  | .ident _ => true
  | _ => false

/-- Arguments. -/
def isArgument : Kind one many → Bool
  | .argument _ _ => true
  | _ => false

/-- The kinds of the nodes below the unit in which names mean something. -/
def hasNames : Kind one many → Bool
  | .unit _ | .param _ _ | .declarator _ _ | .typeRef _ _ _ => false
  | _ => true

theorem declaredName?_of_skeleton {kind : Kind one many} {other : Kind one' many'}
    (same : kind.skeleton = other.skeleton) : kind.declaredName? = other.declaredName? :=
  eq_of_skeleton (fun kind => kind.declaredName?) (fun kind => by cases kind <;> rfl) same

theorem isIdent_of_skeleton {kind : Kind one many} {other : Kind one' many'}
    (same : kind.skeleton = other.skeleton) : kind.isIdent = other.isIdent :=
  eq_of_skeleton (fun kind => kind.isIdent) (fun kind => by cases kind <;> rfl) same

theorem isArgument_of_skeleton {kind : Kind one many} {other : Kind one' many'}
    (same : kind.skeleton = other.skeleton) : kind.isArgument = other.isArgument :=
  eq_of_skeleton (fun kind => kind.isArgument) (fun kind => by cases kind <;> rfl) same

theorem isForEach_of_isParam {kind : Kind one many}
    (isParam : kind.isParam) : kind.isForEach = false := by
  cases kind <;> first | rfl | cases isParam

theorem isForEach_of_isDeclarator {kind : Kind one many} (isDeclarator : kind.isDeclarator) :
    kind.isForEach = false := by
  cases kind <;> first | rfl | cases isDeclarator

theorem opensScope_of_skeleton {kind : Kind one many} {other : Kind one' many'}
    (same : kind.skeleton = other.skeleton) : kind.opensScope = other.opensScope :=
  eq_of_skeleton (fun kind => kind.opensScope) (fun kind => by cases kind <;> rfl) same

end Kind

namespace Tree

/-- Whether a node opens a scope around a child. A loop over elements opens one around its body
only. -/
def opensAround (tree : Tree) (parent child : Ref) : Bool :=
  match tree.kind parent with
  | .forEach _ _ _ body => child == body
  | kind => kind.opensScope

/-- The scopes around a node, the innermost first, each as the node that opens it. -/
def scopesAround (tree : Tree) (ref : Ref) : List Ref :=
  ((tree.lineage ref).zip (tree.ancestors ref)).filterMap fun (child, parent) =>
    if tree.opensAround parent child then some parent else none

/-- The scope in which a node declares its name. A loop over elements declares it in its own
scope. -/
def scopeOf? (tree : Tree) (declaration : Ref) : Option Ref :=
  match tree.kind declaration with
  | .forEach _ _ _ _ => some declaration
  | _ => (tree.scopesAround declaration).head?

/-- The declarators of a statement. -/
def declarators (tree : Tree) (statement : Ref) : List Ref :=
  match tree.kind statement with
  | .localDecl _ declarators => tree.items declarators
  | _ => []

/-- The nodes that declare the names which a scope has from its start: those of its statement list,
its parameters or the variable of its loop. -/
def upFront (tree : Tree) (scope : Ref) : List Ref :=
  match tree.kind scope with
  | .unit statements | .block statements => (tree.items statements).flatMap tree.declarators
  | .method _ _ params _ | .lambda params _ _ => tree.items params
  | .forEach _ _ _ _ => [scope]
  | _ => []

/-- A scope has a name from its start. -/
def DeclaresUpFront (tree : Tree) (scope : Ref) (name : String) : Prop :=
  ∃ declaration ∈ tree.upFront scope, (tree.kind declaration).declaredName? = some name

end Tree

namespace Term

variable {α : Type}

/-- Parameters, declarators and types stand in their places only, and there are only types inside
types. -/
def HasSorts (term : Term α) : Prop :=
  match term.kind with
  | .method result _ params body =>
    (∀ type ∈ result, type.kind.isType) ∧ (∀ param ∈ params, param.kind.isParam) ∧
    ∀ inner ∈ body, inner.kind.hasNames
  | .param type _ => ∀ inner ∈ type, inner.kind.isType
  | .typeRef _ arguments _ => ∀ argument ∈ arguments, argument.kind.isType
  | .localDecl type declarators =>
    (∀ inner ∈ type, inner.kind.isType) ∧ ∀ declarator ∈ declarators, declarator.kind.isDeclarator
  | .forEach type _ collection body => (∀ inner ∈ type, inner.kind.isType) ∧
    (∀ inner ∈ collection, inner.kind.hasNames) ∧ ∀ inner ∈ body, inner.kind.hasNames
  | .lambda params body _ => (∀ param ∈ params, param.kind.isParam) ∧
    ∀ inner ∈ body, inner.kind.hasNames
  | form => ∀ child ∈ parts form, child.kind.hasNames

section

variable {sort : Shape → Bool} {property : Term α → Prop}
  (each : ∀ term : Term α, sort term.shape → property term)

include each

theorem of_all_shape {terms : List (Term α)} (sorted : (terms.map shape).all sort) :
    ∀ term ∈ terms, property term :=
  fun term inside => each term (List.all_eq_true.1 sorted _ (List.mem_map_of_mem inside))

theorem of_optional_shape {term : Option (Term α)} (sorted : (term.map shape).all sort) :
    ∀ inner ∈ term, property inner := by
  intro inner inside
  obtain rfl := Option.mem_def.1 inside
  exact each inner sorted

theorem of_needed_shape {term : Option (Term α)} (sorted : (term.map shape).any sort) :
    ∀ inner ∈ term, property inner := by
  intro inner inside
  obtain rfl := Option.mem_def.1 inside
  exact each inner sorted

end

theorem hasNames_shape (term : Term α) : term.shape.kind.hasNames = term.kind.hasNames := by
  rcases term with ⟨note, form⟩
  cases form <;> rfl

/-- A node of a sort in which names mean something. -/
theorem hasNames_of_sort {sort : Shape → Bool}
    (among : ∀ form, sort (.node () form) → form.hasNames) (term : Term α)
    (sorted : sort term.shape) : term.kind.hasNames := by
  rcases term with ⟨note, form⟩
  rw [← hasNames_shape]
  exact among _ sorted

/-- A term has its children in their places where its shape is formed as the grammar says. -/
theorem hasSorts_of_isFormed {spelling : Spelling} {term : Term α}
    (formed : Shape.IsFormed spelling term.shape) : HasSorts term := by
  have type (term : Term α) : Shape.isType term.shape → term.kind.isType := isType_shape term ▸ id
  have typed (term : Term α) (sort : Shape.isTypedParam term.shape) : term.kind.isParam := by
    rcases term with ⟨_, form⟩
    cases form <;> first | rfl | cases sort
  have bare (term : Term α) (sort : Shape.isBareParam term.shape) : term.kind.isParam := by
    rcases term with ⟨_, form⟩
    cases form <;> first | rfl | cases sort
  have declarator (term : Term α)
      (sort : Shape.isDeclarator term.shape) : term.kind.isDeclarator := by
    rcases term with ⟨_, form⟩
    cases form <;> first | rfl | cases sort
  have expression := @hasNames_of_sort α Shape.isExpression fun form sort => by
    cases form <;> first | rfl | cases sort
  have statement := @hasNames_of_sort α Shape.isStatement fun form sort => by
    cases form <;> first | rfl | cases sort
  have member := @hasNames_of_sort α Shape.isMember fun form sort => by
    cases form <;> first | rfl | cases sort
  have declaration := @hasNames_of_sort α Shape.isDeclaration fun form sort => by
    cases form <;> first | rfl | cases sort
  have block := @hasNames_of_sort α Shape.isBlock fun form sort => by
    cases form <;> first | rfl | cases sort
  have argument := @hasNames_of_sort α Shape.isArgument fun form sort => by
    cases form <;> first | rfl | cases sort
  have operand (least : Nat) (term : Term α)
      (sort : Shape.isOperand least term.shape) : term.kind.hasNames :=
    expression term (Bool.and_eq_true_iff.1 sort).1
  have lambda := @hasNames_of_sort α Shape.isLambda fun form sort => by
    cases form <;> first | rfl | cases sort
  rcases term with ⟨note, form⟩
  cases form <;> rw [shape, map, mapForm] at formed <;>
    simp only [mapSome_eq, mapAll_eq, Shape.IsFormed] at formed
  case method =>
    exact ⟨of_needed_shape type formed.1, of_all_shape typed formed.2.2.1,
      of_needed_shape block formed.2.2.2⟩
  case param => exact of_optional_shape type formed.1
  case typeRef => exact of_all_shape type formed.2.1
  case localDecl => exact ⟨of_needed_shape type formed.1, of_all_shape declarator formed.2.2⟩
  case forEach =>
    exact ⟨of_needed_shape type formed.1, of_needed_shape expression formed.2.2.1,
      of_needed_shape statement formed.2.2.2⟩
  case lambda =>
    refine ⟨of_all_shape bare formed.1, of_needed_shape (fun term sort => ?_) formed.2.2⟩
    exact (Bool.or_eq_true_iff.1 sort).elim (block term) (expression term)
  -- The children of all other nodes are of one sort at each position, and names mean something in
  -- them.
  all_goals
    intro child inside
    simp only [kind, parts, Kind.slots, List.flatMap_cons, List.flatMap_nil, Slot.terms,
      List.append_nil, List.mem_append, Option.mem_toList, List.not_mem_nil] at inside
  case unit => exact of_all_shape member formed child inside
  case block => exact of_all_shape statement formed child inside
  case declarator => exact of_optional_shape expression formed.2 child inside
  case exprStmt | argument | paren => exact of_needed_shape expression formed child inside
  case returnStmt => exact of_optional_shape expression formed child inside
  case unary => exact of_needed_shape (operand _) formed child inside
  case member => exact of_needed_shape (operand _) formed.1 child inside
  case ifStmt =>
    rcases inside with inside | inside | inside
    · exact of_needed_shape expression formed.1 child inside
    · exact of_needed_shape statement formed.2.1 child inside
    · exact of_optional_shape statement formed.2.2.1 child inside
  case whileLoop =>
    rcases inside with inside | inside
    · exact of_needed_shape expression formed.1 child inside
    · exact of_needed_shape statement formed.2 child inside
  case forLoop =>
    obtain ⟨isDeclaration, -, initializers, condition, incrementors, isBody⟩ := formed
    rcases inside with inside | inside | inside | inside | inside
    · exact of_optional_shape declaration isDeclaration child inside
    · exact of_all_shape expression initializers child inside
    · exact of_optional_shape expression condition child inside
    · exact of_all_shape expression incrementors child inside
    · exact of_needed_shape statement isBody child inside
  case invoke =>
    rcases inside with inside | inside
    · exact of_needed_shape (operand _) formed.1 child inside
    · exact of_all_shape argument formed.2 child inside
  case index =>
    rcases inside with inside | inside
    · exact of_needed_shape (operand _) formed.1 child inside
    · exact of_all_shape expression formed.2.2 child inside
  case assign =>
    rcases inside with inside | inside
    · refine @of_needed_shape α _ (fun inner => inner.kind.hasNames)
        (fun term sort => ?_) _ formed.1 child inside
      exact operand _ term (Bool.and_eq_true_iff.1 sort).1
    · exact of_needed_shape expression formed.2 child inside
  case binary =>
    split at formed <;> rcases inside with inside | inside
    · exact of_needed_shape (operand _) formed.1 child inside
    · refine @of_needed_shape α _ (fun inner => inner.kind.hasNames)
        (fun term sort => ?_) _ formed.2 child inside
      exact (Bool.or_eq_true_iff.1 sort).elim (operand _ term) (lambda term)
    · exact of_needed_shape (operand _) formed.1 child inside
    · exact of_needed_shape (operand _) formed.2 child inside

/-- There are only types inside a type. -/
theorem isType_of_mem_subterms {term part : Term α} (sorts : term.All HasSorts)
    (isType : term.kind.isType)
    (inside : part ∈ term.subterms) : part.kind.isType := by
  induction term using Term.induction with
  | step note form ih =>
    rw [subterms_node] at inside
    rcases List.mem_cons.1 inside with rfl | inside
    · exact isType
    · obtain ⟨child, held, inside⟩ := List.mem_flatMap.1 inside
      refine ih child held (sorts.child held) ?_ inside
      cases form <;> try cases isType
      exact sorts.here child (by simpa [parts] using held)

/-- The declarators of a statement. -/
def declarators (statement : Outline) : List Outline :=
  match statement.kind with
  | .localDecl _ declarators => declarators
  | _ => []

/-- The nodes that declare the names which a scope has from its start. -/
def upFront (scope : Outline) : List Outline :=
  match scope.kind with
  | .unit statements | .block statements => statements.flatMap declarators
  | .method _ _ params _ | .lambda params _ _ => params
  | .forEach _ _ _ _ => [scope]
  | _ => []

end Term

namespace Tree

open Term

variable {tree : Tree} {term whole part child : Outline}

theorem Shows.declaredName?
    (shows : tree.Shows term) : (tree.kind term.ref).declaredName? = term.kind.declaredName? :=
  Kind.declaredName?_of_skeleton shows.depicts.skeleton

/-- The declarators of a statement of a term are those that its tree has. -/
theorem Shows.declarators
    (shows : tree.Shows term) : tree.declarators term.ref = term.declarators.map Term.ref := by
  have depicts := shows.depicts
  rw [Tree.declarators, Term.declarators]
  generalize term.kind = form at depicts
  generalize tree.kind term.ref = kind at depicts
  cases kind
  case localDecl =>
    obtain ⟨type, declarators, rfl, -, entries⟩ := depicts.localDecl
    exact entries
  all_goals
    obtain ⟨contents, rfl, -⟩ := depicts.exists_contents
    rfl

/-- The names that a scope of a term has from its start are those that it has in its tree. -/
theorem Shows.upFront
    (shown : term.All tree.Shows) : tree.upFront term.ref = term.upFront.map Term.ref := by
  have within {statements : List Outline}
      (held : ∀ statement ∈ statements, statement ∈ term.children) :
      (statements.map Term.ref).flatMap tree.declarators =
      (statements.flatMap Term.declarators).map Term.ref := by
    rw [List.flatMap_map, List.map_flatMap]
    exact List.flatMap_congr fun statement isHeld =>
      (shown.child (held statement isHeld)).here.declarators
  have depicts := shown.here.depicts
  rw [Tree.upFront, Term.upFront]
  rw [Term.children] at within
  generalize term.kind = form at depicts within
  generalize tree.kind term.ref = kind at depicts
  cases kind
  case unit =>
    obtain ⟨members, rfl, entries⟩ := depicts.unit
    change (tree.items _).flatMap tree.declarators = _
    rw [entries]
    exact within (by simp)
  case block =>
    obtain ⟨statements, rfl, entries⟩ := depicts.block
    change (tree.items _).flatMap tree.declarators = _
    rw [entries]
    exact within (by simp)
  case method =>
    obtain ⟨contents, rfl, slots⟩ := depicts.exists_contents
    simp only [Kind.slots, forall₂_holds_one, forall₂_holds_many] at slots
    obtain ⟨_, _, rfl, -, -, _, _, rfl, entries, -, -⟩ := slots
    exact entries
  case lambda =>
    obtain ⟨params, body, rfl, entries, -⟩ := depicts.lambda
    exact entries
  all_goals
    obtain ⟨contents, rfl, -⟩ := depicts.exists_contents
    rfl

namespace IsProgram

/-- The scopes around a child are those around the node above it, after the one that this node opens
around it. -/
theorem scopesAround_child (program : tree.IsProgram whole) (within : part ∈ whole.subterms)
    (held : child ∈ part.children) : tree.scopesAround child.ref =
      if tree.opensAround part.ref child.ref then part.ref :: tree.scopesAround part.ref
      else tree.scopesAround part.ref := by
  rw [scopesAround, scopesAround, lineage, lineage, program.ancestors_child within held,
    List.zip_cons_cons, List.filterMap_cons]
  by_cases opens : tree.opensAround part.ref child.ref
  · rw [if_pos opens]
    dsimp only
    rw [if_pos opens]
  · rw [if_neg opens]
    dsimp only
    rw [if_neg opens]

/-- There are no scopes around the root. -/
theorem scopesAround_root (program : tree.IsProgram whole) : tree.scopesAround whole.ref = [] := by
  rw [scopesAround, program.ancestors_root, List.zip_nil_right, List.filterMap_nil]

end IsProgram

/-- A node that is no loop over elements opens a scope around all of its children or around none. -/
theorem Shows.opensAround (shows : tree.Shows part) (noLoop : part.kind.isForEach = false)
    (ref : Ref) : tree.opensAround part.ref ref = part.kind.opensScope := by
  rw [Tree.opensAround]
  split
  · rename_i isLoop
    obtain ⟨type, collection, body, same, -⟩ := (isLoop ▸ shows.depicts).forEach
    rw [same] at noLoop
    cases noLoop
  · exact Kind.opensScope_of_skeleton shows.depicts.skeleton

/-- A loop over elements opens a scope around its body only. -/
theorem Shows.opensAround_forEach (shows : tree.Shows part) {type collection body : Option Outline}
    {name : String}
    (isLoop : part.kind = .forEach type name collection body) (ref : Ref) :
    tree.opensAround part.ref ref = (ref == refOf body) := by
  have depicts := shows.depicts
  rw [isLoop] at depicts
  rw [Tree.opensAround, depicts.of_forEach]

end Tree

end Refactory
