import Refactory.Model.Resolve
import Refactory.Proofs.Tree.Mirror

/-!
# The model of a mirrored tree

The models of a tree and of an image of it agree: each node has the facts of the node under its
other number, and the symbols and scopes are the same, but for the numbers of the nodes that declare
the symbols (`Tree.Mirrors.build`). Each step of the walk that builds a model keeps this.
-/
namespace Refactory

/-- A symbol whose declaration is under another number. -/
def Symbol.renumber (move : Nat → Nat) (symbol : Symbol) : Symbol :=
  { symbol with declaration := symbol.declaration.map move }

namespace Model

/-- A model of an image of a tree knows what a model of the tree knows. -/
structure Mirrors (move : Nat → Nat) (model image : Model) : Prop where
  /-- Different nodes have different numbers. -/
  injective : Function.Injective move
  /-- The facts of each node are the same. -/
  facts : ∀ number, image.facts[move number]? = model.facts[number]?
  /-- So are the scopes. -/
  scopes : image.scopes = model.scopes
  /-- So are the symbols, but for the places of their declarations. -/
  symbols : image.symbols = model.symbols.map (Symbol.renumber move)

section

variable {move : Nat → Nat} {model image : Model}

namespace Mirrors

variable (mirrors : model.Mirrors move image)

include mirrors

theorem factsOf (ref : Ref) : image.factsOf (ref.map move) = model.factsOf ref := by
  cases ref with
  | none => rfl
  | some number => exact congrArg (·.getD .nothing) (mirrors.facts number)

theorem symbolOf (ref : Ref) : image.symbolOf (ref.map move) = model.symbolOf ref := by
  rw [Model.symbolOf, mirrors.factsOf, Model.symbolOf]

theorem declaredSymbol
    (ref : Ref) : image.declaredSymbol (ref.map move) = model.declaredSymbol ref := by
  rw [Model.declaredSymbol, mirrors.factsOf, Model.declaredSymbol]

theorem typeOf (ref : Ref) : image.typeOf (ref.map move) = model.typeOf ref := by
  rw [Model.typeOf, mirrors.factsOf, Model.typeOf]

theorem symbolType (symbol : SymbolId) : image.symbolType symbol = model.symbolType symbol := by
  rw [Model.symbolType, mirrors.symbols, Array.getElem?_map, Model.symbolType]
  cases model.symbols[symbol]? <;> rfl

theorem lookupIn (scope : ScopeId)
    (name : String) : image.lookupIn scope name = model.lookupIn scope name := by
  have within (bound : Nat) (scope : ScopeId) :
      image.lookupWithin bound scope name = model.lookupWithin bound scope name := by
    induction bound generalizing scope with
    | zero => rfl
    | succ bound ih => simp only [lookupWithin, mirrors.scopes, ih]
  rw [Model.lookupIn, mirrors.scopes, within, Model.lookupIn]

theorem lookupAt (position : Ref) (name : String) :
    image.lookupAt (position.map move) name = model.lookupAt position name := by
  simp only [Model.lookupAt, mirrors.factsOf, mirrors.lookupIn]

end Mirrors

end

end Model

/-- Two walks over models, one of a tree and the other of an image of it, find the same and keep
their models in agreement. -/
def Resolving.Tracks {α : Type} (move : Nat → Nat) (walk walk' : Model.Resolving α)
    (model image : Model) : Prop :=
  model.Mirrors move image → (walk' image).1 = (walk model).1 ∧
    (walk model).2.Mirrors move (walk' image).2

namespace Resolving.Tracks

variable {α β : Type} {move : Nat → Nat} {model image : Model}

theorem pure (value : α) : Tracks move (Pure.pure value) (Pure.pure value) model image :=
    fun mirrors => ⟨rfl, mirrors⟩

theorem bind {walk walk' : Model.Resolving α} {next next' : α → Model.Resolving β}
    (first : Tracks move walk walk' model image)
    (others : ∀ value model image, Tracks move (next value) (next' value) model image) :
    Tracks move (walk >>= next) (walk' >>= next') model image := by
  intro mirrors
  obtain ⟨same, mirrors⟩ := first mirrors
  change (next' (walk' image).1 (walk' image).2).1 = _ ∧
    Model.Mirrors _ _ (next' (walk' image).1 (walk' image).2).2
  rw [same]
  exact others _ _ _ mirrors

theorem get_bind {next next' : Model → Model.Resolving β}
    (tracks : model.Mirrors move image → Tracks move (next model) (next' image) model image) :
    Tracks move (MonadState.get >>= next) (MonadState.get >>= next') model image :=
  fun mirrors => tracks mirrors mirrors

theorem discard {walk walk' : Model.Resolving α} (tracks : Tracks move walk walk' model image) :
    Tracks move (Functor.discard walk) (Functor.discard walk') model image :=
  fun mirrors => ⟨rfl, (tracks mirrors).2⟩

/-- Walks over what lists hold. -/
theorem forM {items : List α} {f : α → β} {walk : α → Model.Resolving PUnit}
    {walk' : β → Model.Resolving PUnit}
    (each : ∀ item ∈ items, ∀ model image, Tracks move (walk item) (walk' (f item)) model image) :
    Tracks move (items.forM walk) ((items.map f).forM walk') model image := by
  induction items generalizing model image with
  | nil => exact .pure _
  | cons item items ih =>
    exact .bind (each item (.head _) _ _) fun _ _ _ => ih fun other member =>
      each other (.tail _ member)

end Resolving.Tracks

namespace Model

open Resolving Term

section

variable {move : Nat → Nat} {model image : Model}

theorem note_tracks (ref : Ref) (change : Facts → Facts) :
    Tracks move (note ref change) (note (ref.map move) change) model image := by
  intro mirrors
  cases ref with
  | none => exact ⟨rfl, mirrors⟩
  | some number =>
    refine ⟨rfl, mirrors.injective, fun other => ?_, mirrors.scopes, mirrors.symbols⟩
    change (image.facts.modify (move number) change)[move other]?
      = (model.facts.modify number change)[other]?
    rw [Array.getElem?_modify, Array.getElem?_modify, mirrors.facts]
    simp only [mirrors.injective.eq_iff]

theorem enter_tracks (scope : ScopeId) (ref : Ref) :
    Tracks move (enter scope ref) (enter scope (ref.map move)) model image := note_tracks ref _

theorem openScope_tracks
    (scope : ScopeId) : Tracks move (openScope scope) (openScope scope) model image :=
  fun mirrors => ⟨congrArg Array.size mirrors.scopes, mirrors.injective, mirrors.facts,
    congrArg (·.push ⟨some scope, []⟩) mirrors.scopes, mirrors.symbols⟩

theorem declare_tracks (scope : ScopeId) (name : String) (kind : SymbolKind) (type : DataType)
    (ref : Ref) :
    Tracks move (declare scope name kind type ref)
    (declare scope name kind type (ref.map move)) model image := by
  refine .get_bind fun mirrors => ?_
  have size : image.symbols.size = model.symbols.size := by rw [mirrors.symbols, Array.size_map]
  rw [size]
  refine .bind (fun mirrors => ⟨rfl, mirrors.injective, mirrors.facts, ?_, ?_⟩) fun _ _ _ =>
    .bind (note_tracks ref _) fun _ _ _ => .pure _
  · exact congrArg (Array.modify · scope fun scope =>
      { scope with bindings := (name, model.symbols.size) :: scope.bindings }) mirrors.scopes
  · change image.symbols.push _ = (model.symbols.push _).map _
    rw [mirrors.symbols, Array.map_push]
    rfl

theorem setSymbolType_tracks (symbol : SymbolId) (type : DataType) :
    Tracks move (setSymbolType symbol type) (setSymbolType symbol type) model image := by
  refine fun mirrors => ⟨rfl, mirrors.injective, mirrors.facts, mirrors.scopes, ?_⟩
  change (image.symbols.modify symbol fun symbol => { symbol with type })
    = (model.symbols.modify symbol fun symbol => { symbol with type }).map (Symbol.renumber move)
  rw [mirrors.symbols]
  refine Array.ext_getElem? fun place => ?_
  simp only [Array.getElem?_modify, Array.getElem?_map]
  split
  · cases model.symbols[place]? <;> rfl
  · rfl

theorem resolveName_tracks (scope : ScopeId) (name : String) (ref : Ref) :
    Tracks move (resolveName scope name ref)
      (resolveName scope name (ref.map move)) model image := by
  refine .get_bind fun mirrors => ?_
  rw [mirrors.lookupIn]
  cases model.lookupIn scope name with
  | none => exact .pure _
  | some symbol =>
    simp only [mirrors.symbolType]
    exact note_tracks ref _

theorem settleLocal_tracks (scope : ScopeId) (name : String) (type : DataType) (ref : Ref) :
    Tracks move (settleLocal scope name type ref)
      (settleLocal scope name type (ref.map move)) model image := by
  refine .get_bind fun mirrors => ?_
  rw [mirrors.declaredSymbol]
  cases model.declaredSymbol ref with
  | some symbol => exact .bind (.pure symbol) fun _ _ _ => setSymbolType_tracks _ type
  | none => exact .bind (declare_tracks scope name .local .unknown ref) fun _ _ _ =>
    setSymbolType_tracks _ type

end

section

variable {move : Nat → Nat} {f : Place → Place}
  (renumbers : ∀ place, (f place).ref = place.ref.map move) {model image : Model}

include renumbers

theorem ref_note_map (term : Outline) : (term.map f).note.ref = term.note.ref.map move := by
  rw [Term.note_map, renumbers]

theorem childType_map (mirrors : model.Mirrors move image) (child : Option Outline) :
    image.childType (mapSome f child) = model.childType child := by
  cases child with
  | none => rfl
  | some child =>
    rw [mapSome, childType, ref_note_map renumbers, mirrors.typeOf, childType]

theorem projectedType_map (mirrors : model.Mirrors move image) (arguments : List Outline) :
    image.projectedType (mapAll f arguments) = model.projectedType arguments := by
  match arguments with
  | [] => rfl
  | .node _ form :: _ =>
    cases form with
    | argument modifier value =>
      match value with
      | none => rfl
      | some (.node _ form) =>
        cases form with
        | lambda params body parenthesized => exact childType_map renumbers mirrors body
        | _ => rfl
    | _ => rfl

theorem receiverType_map (mirrors : model.Mirrors move image) (callee : Option Outline) :
    image.receiverType (mapSome f callee) = model.receiverType callee := by
  match callee with
  | none => rfl
  | some (.node _ form) =>
    cases form with
    | member receiver name conditional => exact childType_map renumbers mirrors receiver
    | _ => rfl

theorem inferType_map (mirrors : model.Mirrors move image) (form : Form Place) :
    image.inferType (mapForm f form) = model.inferType form := by
  have child := childType_map renumbers mirrors
  cases form with
  | invoke callee arguments =>
    match callee with
    | none => rfl
    | some (.node _ form) =>
      cases form with
      | member receiver name conditional =>
        simp only [mapForm, mapSome, map, inferType, memberCallType, child,
          projectedType_map renumbers mirrors]
      | _ => rfl
  | _ => first | rfl | simp only [mapForm, inferType, child]

end

section

variable {f : Place → Place}

theorem writtenType_map (term : Outline) : writtenType (term.map f) = writtenType term := by
  induction term using Term.induction with
  | step place form ih =>
    cases form with
    | typeRef name arguments rank =>
      have below : writtenTypes (arguments.map (map f)) = writtenTypes arguments := by
        replace ih : ∀ argument ∈ arguments, writtenType (argument.map f)
          = writtenType argument := by simpa using ih
        clear place
        induction arguments with
        | nil => rfl
        | cons argument arguments rest =>
          rw [List.map_cons, writtenTypes, writtenTypes, ih argument (.head _),
            rest fun other member => ih other (.tail _ member)]
      simp only [map, mapForm, writtenType, mapAll_eq, below, List.isEmpty_map]
    | _ => rfl

theorem writtenTypeOf_map
    (type : Option Outline) : writtenTypeOf (mapSome f type) = writtenTypeOf type := by
  cases type with
  | none => rfl
  | some type => exact writtenType_map type

end

section

variable {move : Nat → Nat} {f : Place → Place}
  (renumbers : ∀ place, (f place).ref = place.ref.map move) {model image : Model}

include renumbers

theorem infer_tracks (ref : Ref) (form : Form Place) :
    Tracks move (infer ref form) (infer (ref.map move) (mapForm f form)) model image := by
  refine .get_bind fun mirrors => ?_
  rw [inferType_map renumbers mirrors]
  dsimp only
  split
  · exact .pure _
  · exact note_tracks ref _

theorem predeclare_tracks (scope : ScopeId) (statements : List Outline) :
    Tracks move (predeclare scope statements)
      (predeclare scope (statements.map (map f))) model image := by
  refine .forM fun statement _ model image => ?_
  cases statement with
  | node _ form =>
    cases form with
    | localDecl type declarators =>
      simp only [map, mapForm, mapAll_eq]
      refine .forM fun declarator _ model image => ?_
      cases declarator with
      | node place form =>
        cases form with
        | declarator name value =>
          simp only [map, mapForm, renumbers]
          exact .discard (declare_tracks scope name .local .unknown place.ref)
        | _ => exact .pure _
    | _ => exact .pure _

theorem declareParams_tracks (scope : ScopeId) (kind : SymbolKind)
    {typeOf : Option Outline → DataType}
    (same : ∀ type, typeOf (mapSome f type) = typeOf type) (params : List Outline) :
    Tracks move (declareParams scope kind typeOf params)
    (declareParams scope kind typeOf (params.map (map f))) model image := by
  refine .forM fun param _ model image => ?_
  rw [ref_note_map renumbers]
  refine .bind (enter_tracks scope _) fun _ _ _ => ?_
  match param with
  | .node place form =>
    cases form with
    | param type name =>
      simp only [map, mapForm, renumbers, same]
      exact .discard (declare_tracks scope name kind _ place.ref)
    | _ => exact .pure _

omit renumbers in
variable (move f) in
/-- The walks over a node and over the node under its other number go the same way. -/
def Follows (term : Outline) : Prop := ∀ scope given model image,
  Tracks move (resolve scope given term) (resolve scope given (term.map f)) model image

omit renumbers in
theorem resolveSome_tracks {child : Option Outline} (scope : ScopeId) (given : DataType)
    (below : ∀ term ∈ child, Follows move f term) :
    Tracks move (resolveSome scope given child)
    (resolveSome scope given (mapSome f child)) model image := by
  cases child with
  | none => exact .pure _
  | some term => exact below term rfl _ _ _ _

omit renumbers in
theorem resolveAll_tracks {terms : List Outline} (scope : ScopeId) (given : DataType)
    (below : ∀ term ∈ terms, Follows move f term) :
    Tracks move (resolveAll scope given terms)
    (resolveAll scope given (terms.map (map f))) model image := by
  induction terms generalizing model image with
  | nil => exact .pure _
  | cons term terms ih =>
    exact .bind (below term (.head _) _ _ _ _) fun _ _ _ => ih fun other member =>
      below other (.tail _ member)

theorem resolveDeclarators_tracks {terms : List Outline} (scope : ScopeId)
    (written : Option DataType)
    (below : ∀ term ∈ terms, ∀ child ∈ term.children, Follows move f child) :
    Tracks move (resolveDeclarators scope written terms)
    (resolveDeclarators scope written (terms.map (map f))) model image := by
  induction terms generalizing model image with
  | nil => exact .pure _
  | cons term terms ih =>
    have others :=
      fun model image => @ih model image fun other member => below other (.tail _ member)
    have here := below term (.head _)
    match term with
    | .node place form =>
      cases form with
      | declarator name value =>
        simp only [List.map_cons, map, mapForm, resolveDeclarators, renumbers]
        refine .bind (enter_tracks scope _) fun _ _ _ =>
          .bind (resolveSome_tracks scope .unknown fun child inside => ?_)
          fun _ _ _ => .get_bind fun mirrors => ?_
        · exact here child (by simpa [children, kind] using inside)
        · rw [childType_map renumbers mirrors]
          exact .bind (settleLocal_tracks scope name _ place.ref) fun _ _ _ => others _ _
      | _ =>
        simp only [List.map_cons, map, mapForm, resolveDeclarators, renumbers]
        exact .bind (enter_tracks scope _) fun _ _ _ => others _ _

/-- The walk below a node. -/
theorem resolveForm_tracks (form : Form Place) (scope : ScopeId) (given : DataType) (ref : Ref)
    (below : ∀ child ∈ parts form, Follows move f child ∧
      ∀ inner ∈ child.children, Follows move f inner) :
    Tracks move (resolveForm scope given ref form)
    (resolveForm scope given (ref.map move) (mapForm f form)) model image := by
  have one {child : Option Outline} {scope : ScopeId} {given : DataType} {model image : Model}
      (inside : .one child ∈ form.slots := by simp [Kind.slots]) :
      Tracks move (resolveSome scope given child)
    (resolveSome scope given (mapSome f child)) model image :=
    resolveSome_tracks scope given fun term member =>
      (below term (mem_parts.2 ⟨.one child, inside, Option.mem_toList.2 member⟩)).1
  have all {terms : List Outline} {scope : ScopeId} {given : DataType} {model image : Model}
      (inside : .many terms ∈ form.slots := by simp [Kind.slots]) :
      Tracks move (resolveAll scope given terms)
    (resolveAll scope given (terms.map (map f))) model image :=
    resolveAll_tracks scope given fun term member =>
    (below term (mem_parts.2 ⟨.many terms, inside, member⟩)).1
  cases form with
  | unit members =>
    simp only [resolveForm, mapForm, mapAll_eq]
    exact .bind (predeclare_tracks renumbers scope members) fun _ _ _ => all
  | method result name params body =>
    simp only [resolveForm, mapForm, mapAll_eq]
    refine .bind (openScope_tracks scope) fun inner _ _ =>
      .bind (declareParams_tracks renumbers inner .parameter
      (fun type => by rw [writtenTypeOf_map]) params) fun _ _ _ => one
  | block statements =>
    simp only [resolveForm, mapForm, mapAll_eq]
    exact .bind (openScope_tracks scope) fun inner _ _ =>
      .bind (predeclare_tracks renumbers inner statements) fun _ _ _ => all
  | localDecl type declarators =>
    simp only [resolveForm, mapForm, mapAll_eq, writtenTypeOf_map]
    exact resolveDeclarators_tracks renumbers scope _ fun declarator member =>
      (below declarator (by simp [member])).2
  | forLoop declaration initializers condition incrementors body =>
    simp only [resolveForm, mapForm, mapAll_eq]
    refine .bind (openScope_tracks scope) fun inner _ _ =>
      .bind one fun _ _ _ =>
      .bind all fun _ _ _ =>
        .bind one fun _ _ _ =>
      .bind all fun _ _ _ => one
  | forEach type name collection body =>
    simp only [resolveForm, mapForm, writtenTypeOf_map]
    refine .bind one fun _ _ _ => .get_bind fun mirrors => ?_
    rw [childType_map renumbers mirrors]
    exact .bind (openScope_tracks scope) fun inner _ _ =>
      .bind (.discard (declare_tracks inner name .iterationVariable _ ref))
      fun _ _ _ => one
  | lambda params body parenthesized =>
    simp only [resolveForm, mapForm, mapAll_eq]
    exact .bind (openScope_tracks scope) fun inner _ _ =>
      .bind (declareParams_tracks renumbers inner .lambdaParameter
      (fun _ => rfl) params) fun _ _ _ => one
  | invoke callee arguments =>
    simp only [resolveForm, mapForm, mapAll_eq]
    refine .bind one fun _ _ _ => .get_bind fun mirrors => ?_
    rw [receiverType_map renumbers mirrors]
    exact all
  | argument modifier value =>
    simp only [resolveForm, mapForm]
    exact one
  | ident name =>
    simp only [resolveForm, mapForm]
    exact resolveName_tracks scope name ref
  | typeRef | int | str | bool | null => exact .pure _
  | param | declarator | exprStmt | returnStmt | member | unary | paren =>
    simp only [resolveForm, mapForm]
    exact one
  | whileLoop | binary | assign =>
    simp only [resolveForm, mapForm]
    exact .bind one fun _ _ _ => one
  | ifStmt condition thenBranch elseBranch =>
    simp only [resolveForm, mapForm]
    exact .bind one fun _ _ _ =>
      .bind one
      fun _ _ _ => one
  | index receiver arguments =>
    simp only [resolveForm, mapForm, mapAll_eq]
    exact .bind one fun _ _ _ => all

/-- The walk over the outline of a node, and that over each of its children. -/
theorem follows
    (term : Outline) : Follows move f term ∧ ∀ child ∈ term.children, Follows move f child := by
  induction term using Term.induction with
  | step place form ih =>
    refine ⟨fun scope given model image => ?_, fun child member => (ih child member).1⟩
    simp only [map, resolve, renumbers]
    exact .bind (enter_tracks scope place.ref) fun _ _ _ =>
      .bind (resolveForm_tracks renumbers form scope given place.ref ih)
        fun _ _ _ => infer_tracks renumbers place.ref form

end

end Model

namespace Tree.Mirrors

open Model Term

variable {move : Nat → Nat} {tree image : Tree} (mirrors : tree.Mirrors move image)

include mirrors

theorem blank : (Model.blank tree.size).Mirrors move (Model.blank image.size) where
  injective := mirrors.injective
  facts number := by
    simp only [Model.blank, Array.getElem?_replicate, mirrors.lt_size_iff]
  scopes := rfl
  symbols := Array.map_empty.symm

/-- The models of a tree and of its image agree. -/
theorem build (grounded : tree.Grounded tree.root) :
    (Model.build tree).Mirrors move (Model.build image) := by
  rw [Model.build, Model.build, mirrors.root]
  cases root : tree.root with
  | none => exact mirrors.blank
  | some number =>
    rw [root] at grounded
    have ends := grounded nofun
    -- Both walks are compared to that over the outline in the image without spans.
    let bare (place : Place) : Place := ⟨place.ref, .nowhere⟩
    let moved (place : Place) : Place := ⟨place.ref.map move, .nowhere⟩
    have outlines :
        (image.outline (some (move number))).map bare = (tree.outline (some number)).map moved := by
      have same := mirrors.outlineWithin ends (mirrors.ends_of_grounded grounded nofun)
      have same := congrArg (map fun ref => (⟨ref, .nowhere⟩ : Place)) same
      rwa [map_map, map_map] at same
    have followsTree : Follows move moved (tree.outline (some number)) :=
      (follows (fun _ => rfl) _).1
    have ofTree := (followsTree rootScope .unknown _ _ mirrors.blank).2
    have unmoved : (Model.blank image.size).Mirrors id (Model.blank image.size) :=
      ⟨Function.injective_id, fun _ => rfl, rfl, Array.map_empty.symm⟩
    have followsImage : Follows id bare (image.outline (some (move number))) :=
      (follows (f := bare) (fun place => congrFun Option.map_id.symm place.ref) _).1
    have ofImage := (followsImage rootScope .unknown _ _ unmoved).2
    rw [outlines] at ofImage
    refine ⟨mirrors.injective, fun other => ?_, ?_, ?_⟩
    · exact (ofImage.facts (move other)).symm.trans (ofTree.facts other)
    · exact ofImage.scopes.symm.trans ofTree.scopes
    · have unmoved : Symbol.renumber id = id := by
        funext symbol
        rw [Symbol.renumber, Option.map_id]
        rfl
      have same := ofImage.symbols
      rw [unmoved, Array.map_id] at same
      exact same.symm.trans ofTree.symbols

end Tree.Mirrors

end Refactory
