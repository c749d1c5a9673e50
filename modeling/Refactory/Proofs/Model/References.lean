import Refactory.Model.Resolve
import Refactory.Proofs.Tree.Reading

/-!
# What refers to symbols

The walk that builds a model notes references at names only (`Model.Finds`, `Model.finds_resolve`).
So what refers to a symbol in a program is a name (`Tree.IsProgram.exists_ident_of_symbolOf`).
-/
namespace Refactory

variable {ref : Ref} {scope : ScopeId}

namespace Model

variable {α β : Type} {names : Ref → Prop}

/-- A model knows references at some nodes only. -/
def ReferencesAt (names : Ref → Prop) (model : Model) : Prop :=
    ∀ ref, (model.symbolOf ref).isSome → names ref

/-- A step of the walk notes references at some nodes only. -/
def Finds (names : Ref → Prop) (step : Resolving α) : Prop :=
  ∀ model, ReferencesAt names model → ReferencesAt names (step model).2

namespace Finds

theorem pure (value : α) : Finds names (Pure.pure value : Resolving α) := fun _ known => known

theorem bind {step : Resolving α} {next : α → Resolving β} (first : Finds names step)
    (others : ∀ value, Finds names (next value)) : Finds names (step >>= next) :=
  fun model known => others (step model).1 (step model).2 (first model known)

theorem get : Finds names (MonadState.get : Resolving Model) := fun _ known => known

theorem discard {step : Resolving α}
    (finds : Finds names step) : Finds names (discard step) := finds

theorem ite {condition : Prop} [Decidable condition] {step other : Resolving α}
    (here : Finds names step)
    (there : Finds names other) : Finds names (if condition then step else other) := by
  split
  · exact here
  · exact there

theorem forM {terms : List β} {step : β → Resolving PUnit}
    (finds : ∀ term ∈ terms, Finds names (step term)) :
    Finds names (terms.forM step) := by
  induction terms with
  | nil => exact .pure _
  | cons term terms ih =>
    exact (finds term (.head _)).bind fun _ => ih fun other member => finds other (.tail _ member)

end Finds

/-- What is known of the nodes after something is noted at one of them. -/
theorem factsOf_note (ref other : Ref) (change : Facts → Facts) (model : Model) :
    ((note ref change model).2.factsOf other) = model.factsOf other ∨
      ref = other ∧ (note ref change model).2.factsOf other = change (model.factsOf other) := by
  cases ref with
  | none => exact .inl rfl
  | some number =>
    cases other with
    | none => exact .inl rfl
    | some place =>
      change (((model.facts.modify number change)[place]?.getD .nothing) = _) ∨ _ ∧
        ((model.facts.modify number change)[place]?.getD .nothing) = _
      rw [Array.getElem?_modify, factsOf]
      split
      · rename_i same
        cases found : model.facts[place]? with
        | none => exact .inl rfl
        | some facts => exact .inr ⟨congrArg some same, rfl⟩
      · exact .inl rfl

/-- What is noted at a node with a name may be a reference, and what leaves references as they are
may be noted anywhere. -/
theorem finds_note {change : Facts → Facts}
    (allowed : names ref ∨ ∀ facts, (change facts).reference = facts.reference) :
    Finds names (note ref change) := by
  intro model known other isSome
  rcases factsOf_note ref other change model with same | ⟨rfl, changed⟩
  · rw [symbolOf, same] at isSome
    exact known other isSome
  · rcases allowed with isName | unchanged
    · exact isName
    · rw [symbolOf, changed, unchanged] at isSome
      exact known ref isSome

theorem finds_enter (scope : ScopeId) (ref : Ref) : Finds names (enter scope ref) :=
    finds_note (.inr fun _ => rfl)

theorem finds_setType (ref : Ref) (type : DataType) : Finds names (setType ref type) :=
    finds_note (.inr fun _ => rfl)

theorem finds_openScope (parent : ScopeId) : Finds names (openScope parent) := fun _ known => known

theorem finds_setSymbolType (symbol : SymbolId)
    (type : DataType) : Finds names (setSymbolType symbol type) :=
  fun _ known => known

/-- A change that leaves the facts as they are finds nothing. -/
theorem finds_modify {change : Model → Model}
    (unchanged : ∀ model, (change model).facts = model.facts) :
    Finds names (modify change : Resolving PUnit) := by
  intro model known other isSome
  change ((change model).symbolOf other).isSome at isSome
  have same : (change model).factsOf other = model.factsOf other := by
    cases other <;> simp [factsOf, unchanged]
  rw [symbolOf, same] at isSome
  exact known other isSome

theorem finds_declare (scope : ScopeId) (name : String) (kind : SymbolKind) (type : DataType)
    (ref : Ref) :
    Finds names (declare scope name kind type ref) := by
  rw [declare]
  refine Finds.get.bind fun model => Finds.bind ?_ fun _ => Finds.bind ?_ fun _ => .pure _
  · exact finds_modify fun _ => rfl
  · exact finds_note (.inr fun _ => rfl)

theorem finds_predeclare (scope : ScopeId) (statements : List Outline) :
    Finds names (predeclare scope statements) := by
  refine .forM fun statement _ => ?_
  split
  · refine .forM fun declarator _ => ?_
    split
    · exact (finds_declare _ _ _ _ _).discard.bind fun _ => .pure _
    · exact .pure _
  · exact .pure _

theorem finds_declareParams (scope : ScopeId) (kind : SymbolKind)
    (typeOf : Option Outline → DataType)
    (params : List Outline) : Finds names (declareParams scope kind typeOf params) := by
  refine .forM fun param _ => (finds_enter _ _).bind fun _ => ?_
  split
  · exact (finds_declare _ _ _ _ _).discard
  · exact .pure _

theorem finds_settleLocal (scope : ScopeId) (name : String) (type : DataType) (ref : Ref) :
    Finds names (settleLocal scope name type ref) := by
  rw [settleLocal]
  refine Finds.get.bind fun model => ?_
  split
  · exact (Finds.pure _).bind fun _ => finds_setSymbolType _ _
  · exact (finds_declare _ _ _ _ _).bind fun _ => finds_setSymbolType _ _

theorem finds_infer (ref : Ref) (form : Term.Form Place) : Finds names (infer ref form) := by
  refine Finds.get.bind fun model => ?_
  exact .ite (.pure _) (finds_setType _ _)

/-- Resolving a name notes a reference at its node. -/
theorem finds_resolveName (isName : names ref) (scope : ScopeId) (name : String) :
    Finds names (resolveName scope name ref) := by
  refine Finds.get.bind fun model => ?_
  split
  · exact .pure _
  · exact finds_note (.inl isName)

theorem finds_resolveSome {given : DataType} {term : Option Outline}
    (finds : ∀ child ∈ term, Finds names (resolve scope given child)) :
    Finds names (resolveSome scope given term) := by
  cases term with
  | none =>
    rw [resolveSome]
    exact .pure _
  | some term =>
    rw [resolveSome]
    exact finds term rfl

theorem finds_resolveAll {given : DataType} {terms : List Outline}
    (finds : ∀ child ∈ terms, Finds names (resolve scope given child)) :
    Finds names (resolveAll scope given terms) := by
  induction terms with
  | nil =>
    rw [resolveAll]
    exact .pure _
  | cons term terms ih =>
    rw [resolveAll]
    exact (finds term (.head _)).bind fun _ => ih fun other member => finds other (.tail _ member)

theorem finds_resolveDeclarators {written : Option DataType} {terms : List Outline}
    (finds : ∀ declarator ∈ terms, ∀ value ∈ declarator.children, ∀ scope given, Finds names
        (resolve scope given value)) : Finds names (resolveDeclarators scope written terms) := by
  induction terms with
  | nil =>
    rw [resolveDeclarators]
    exact .pure _
  | cons term terms ih =>
    have others := ih fun other member => finds other (.tail _ member)
    rcases term with ⟨place, form⟩
    by_cases isDeclarator : ∃ name value, form = .declarator name value
    · obtain ⟨name, value, rfl⟩ := isDeclarator
      rw [resolveDeclarators]
      refine (finds_enter _ _).bind fun _ => Finds.bind (finds_resolveSome fun child isValue => ?_)
        fun _ => Finds.get.bind fun _ => (finds_settleLocal _ _ _ _).bind fun _ => others
      exact finds _ (.head _) child
        (by simp [Term.children, Term.kind, Term.parts, Option.mem_def.1 isValue]) _ _
    · rw [resolveDeclarators]
      · exact (finds_enter _ _).bind fun _ => others
      · exact fun name value same => isDeclarator ⟨name, value, same⟩

open Term in
/-- Resolving a term notes references at its names only. -/
theorem finds_resolve {term : Outline}
    (atNames : term.All fun part => ∀ name, part.kind = .ident name → names part.ref)
    (scope : ScopeId) (given : DataType) : Finds names (resolve scope given term) := by
  -- Declarators are passed over, so what is below the children is resolved from here as well.
  suffices both : (∀ scope given, Finds names (resolve scope given term)) ∧ ∀ child ∈ term.children,
      ∀ scope given, Finds names (resolve scope given child) from both.1 scope given
  clear scope given
  induction term using Term.induction with
  | step place form ih =>
    have below : ∀ child ∈ parts form, ∀ scope given, Finds names (resolve scope given child) :=
      fun child member => (ih child member (atNames.child member)).1
    have deeper : ∀ child ∈ parts form, ∀ inner ∈ child.children, ∀ scope given,
        Finds names (resolve scope given inner) :=
      fun child member => (ih child member (atNames.child member)).2
    refine ⟨fun scope given => ?_, below⟩
    have one {child : Option Outline} {scope : ScopeId} {given : DataType}
        (inside : ∀ inner ∈ child, inner ∈ parts form := by simp +contextual [parts]) :
        Finds names (resolveSome scope given child) :=
      finds_resolveSome fun inner isInner => below inner (inside inner isInner) scope given
    have all {children : List Outline} {scope : ScopeId} {given : DataType}
        (inside : ∀ inner ∈ children, inner ∈ parts form := by simp +contextual [parts]) :
        Finds names (resolveAll scope given children) :=
      finds_resolveAll fun inner isInner => below inner (inside inner isInner) scope given
    rw [resolve]
    refine (finds_enter _ _).bind fun _ => Finds.bind ?_ fun _ => finds_infer _ _
    cases form <;> rw [resolveForm]
    case unit members => exact (finds_predeclare _ _).bind fun _ => all
    case method result name params body =>
      exact (finds_openScope _).bind fun _ => (finds_declareParams _ _ _ _).bind fun _ => one
    case block statements =>
      exact (finds_openScope _).bind fun _ => (finds_predeclare _ _).bind fun _ => all
    case localDecl type declarators =>
      exact finds_resolveDeclarators fun declarator member =>
        deeper declarator (by simp [parts, member])
    case forLoop declaration initializers condition incrementors body =>
      exact (finds_openScope _).bind fun _ => .bind one fun _ => .bind all fun _ =>
        .bind one fun _ => .bind all fun _ => one
    case forEach type name collection body =>
      exact .bind one fun _ => Finds.get.bind fun _ => (finds_openScope _).bind fun _ =>
        (finds_declare _ _ _ _ _).discard.bind fun _ => one
    case lambda params body parenthesized =>
      exact (finds_openScope _).bind fun _ => (finds_declareParams _ _ _ _).bind fun _ => one
    case invoke callee arguments =>
      exact .bind one fun _ => Finds.get.bind fun _ => all
    case ident name => exact finds_resolveName (atNames.here name rfl) _ _
    case ifStmt condition thenBranch elseBranch =>
      exact .bind one fun _ => .bind one fun _ => one
    case index receiver arguments =>
      exact .bind one fun _ => all
    case typeRef | int | str | bool | null => exact .pure _
    case param | declarator | exprStmt | returnStmt | member | argument | unary | paren =>
      exact one
    case whileLoop | binary | assign =>
      exact .bind one fun _ => one

end Model

open Term in
/-- The model of a program is made by resolving its term. -/
theorem Tree.IsProgram.build_eq {tree : Tree} {whole : Outline} (program : tree.IsProgram whole) :
    Model.build tree =
    (Model.resolve Model.rootScope .unknown whole (Model.blank tree.size)).2 := by
  obtain ⟨number, -, isRoot⟩ := program.stands.hasRef (ref_mem_refs whole)
  rw [← program.outline_root, Model.build, ← program.root, isRoot]
  rfl

/-- Nothing is known of any node before the walk. -/
theorem Model.factsOf_blank (size : Nat)
    (ref : Ref) : (Model.blank size).factsOf ref = .nothing := by
  cases ref with
  | none => rfl
  | some number =>
    rw [Model.factsOf, Model.blank, Array.getElem?_replicate]
    split <;> rfl

open Term in
/-- What refers to a symbol in the model of a program is a name of the program. -/
theorem Tree.IsProgram.exists_ident_of_symbolOf {tree : Tree} {whole : Outline}
    (program : tree.IsProgram whole)
    (refers : ((Model.build tree).symbolOf ref).isSome) :
    ∃ part ∈ whole.subterms, part.ref = ref ∧ ∃ name, part.kind = .ident name := by
  let names (ref : Ref) : Prop :=
    ∃ part ∈ whole.subterms, part.ref = ref ∧ ∃ name, part.kind = .ident name
  have atNames : whole.All fun part => ∀ name, part.kind = .ident name → names part.ref :=
    all_iff_subterms.2 fun part within name isName => ⟨part, within, rfl, name, isName⟩
  rw [program.build_eq] at refers
  refine @Model.finds_resolve names _ atNames _ _ _ (fun other isSome => ?_) ref refers
  rw [Model.symbolOf, Model.factsOf_blank] at isSome
  cases isSome

end Refactory
