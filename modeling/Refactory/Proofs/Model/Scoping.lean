import Refactory.Proofs.Model.Bindings

/-!
# Lexical scoping

The walk that builds a model gives every name the meaning that lexical scoping gives it. What a step
of the walk does to some nodes is said by `Model.Walks`: it declares those that declare a name,
looks up those that are names, and leaves a model that is consistent with the tree. Steps one after
the other walk over the nodes of both (`Model.Walks.bind`), and resolving a term walks over its
nodes (`Model.walks_resolve`).

So in the model of a source text exactly the declarators, parameters and loops over elements have
symbols, one each, and a name refers to the symbol that is declared in the innermost scope around it
that has the name (`Tree.build_scopes_lexically`).
-/
namespace Refactory

variable {given : DataType} {terms statements : List Outline} {statement declarator : Outline}

namespace Model

open Term

/-- What is to be known of a node after the walk over it: a declaration has a symbol, and a name
without one is declared from the start of no scope around it. -/
def Settled (tree : Tree) (model : Model) (ref : Ref) : Prop :=
  ((tree.kind ref).declaredName?.isSome → (model.declaredSymbol ref).isSome) ∧
    ∀ name, tree.kind ref = .ident name → model.symbolOf ref = none →
    tree.Lacks (tree.scopesAround ref) name

/-- A node at which nothing is to be known. -/
def Inert (tree : Tree) (ref : Ref) : Prop :=
  (tree.kind ref).declaredName? = none ∧ ∀ name, tree.kind ref ≠ .ident name

/-- A node lies directly inside the node of a scope. -/
def Inside (tree : Tree) (nodes : List Ref) (scope : ScopeId) (ref : Ref) : Prop :=
  ∃ node, nodes[scope]? = some node ∧ tree.scopesAround ref = node :: tree.scopesAround node

/-- A step that walks over some nodes, of which only the excused ones may be declared before. The
nodes of the scopes that are open when it starts begin with the given ones. -/
def Walks {α : Type} (tree : Tree) (nodes : List Ref) (excused : Ref → Prop) (refs : List Ref)
    (step : Resolving α) :
    Prop := ∀ known model, nodes <+: known → Consistent tree known model → Ready tree known model →
  (∀ ref ∈ refs, (model.declaredSymbol ref).isSome → excused ref) → refs.Nodup →
    ∃ known', known <+: known' ∧ Consistent tree known' (step model).2 ∧
    Ready tree known' (step model).2 ∧
      Keeps refs model (step model).2 ∧ ∀ ref ∈ refs, Settled tree (step model).2 ref

variable {α β : Type} {tree : Tree} {nodes known refs others : List Ref}
  {excused fewer : Ref → Prop} {scope : ScopeId} {ref : Ref} {name : String} {step : Resolving α}
  {next : α → Resolving β}

theorem Inside.mono (inside : Inside tree nodes scope ref)
    (more : nodes <+: known) : Inside tree known scope ref := by
  obtain ⟨node, isNode, around⟩ := inside
  obtain ⟨later, rfl⟩ := more
  exact ⟨node, List.getElem?_append_left (List.getElem?_eq_some_iff.1 isNode).1 ▸ isNode, around⟩

theorem Settled.of_inert {model : Model} (inert : Inert tree ref) : Settled tree model ref := by
  refine ⟨fun isSome => ?_, fun name isName => absurd isName (inert.2 name)⟩
  rw [inert.1] at isSome
  cases isSome

/-- What is known of a node stays known. -/
theorem Settled.keep {before after : Model} (settled : Settled tree before ref)
    (keeps : Keeps refs before after) :
    Settled tree after ref := by
  refine ⟨fun isSome => keeps.declared (settled.1 isSome), fun name isName missing =>
    settled.2 name isName ?_⟩
  by_contra present
  have isSome := keeps.refers (Option.isSome_iff_ne_none.2 present)
  rw [missing] at isSome
  cases isSome

namespace Walks

/-- Walking over some nodes and then over others. -/
theorem bind (first : Walks tree nodes excused refs step)
    (second : ∀ value, Walks tree nodes excused others (next value)) :
    Walks tree nodes excused (refs ++ others) (step >>= next) := by
  intro known model isKnown consistent ready isNew once
  obtain ⟨onceFirst, onceOthers, apart⟩ := List.nodup_append'.1 once
  obtain ⟨middle, isMiddle, consistent, ready, kept, settled⟩ :=
    first known model isKnown consistent ready
    (fun ref member => isNew ref (List.mem_append_left _ member)) onceFirst
  have isNew (ref : Ref) (member : ref ∈ others)
      (isSome : ((step model).2.declaredSymbol ref).isSome) : excused ref := by
    refine isNew ref (List.mem_append_right _ member) (Option.isSome_iff_ne_none.2 fun absent => ?_)
    rw [kept.elsewhere (fun before => apart before member) absent] at isSome
    cases isSome
  obtain ⟨after, isAfter, consistent, ready, keptOthers, settledOthers⟩ :=
    second (step model).1 middle (step model).2
      (isKnown.trans isMiddle) consistent ready isNew onceOthers
  refine ⟨after, isMiddle.trans isAfter, consistent, ready, kept.trans keptOthers,
    fun ref member => ?_⟩
  rcases List.mem_append.1 member with member | member
  · exact (settled ref member).keep keptOthers
  · exact settledOthers ref member

/-- A quiet step may pass over nodes at which nothing is to be known. -/
theorem quiet (isQuiet : Quiet step) (inert : ∀ ref ∈ refs, Inert tree ref) :
    Walks tree nodes excused refs step :=
  fun known model _ consistent ready _ _ =>
    ⟨known, List.prefix_rfl, (isQuiet model).consistent consistent, (isQuiet model).ready ready,
    (isQuiet model).keeps refs, fun ref member => .of_inert (inert ref member)⟩

theorem silent (isQuiet : Quiet step) : Walks tree nodes excused [] step :=
  .quiet isQuiet fun _ member => absurd member List.not_mem_nil

theorem weaken (walks : Walks tree nodes excused refs step)
    (less : ∀ ref ∈ refs, fewer ref → excused ref) :
    Walks tree nodes fewer refs step := fun known model isKnown consistent ready isNew once =>
  walks known model isKnown consistent ready
    (fun ref member isSome => less ref member (isNew ref member isSome)) once

theorem unexcused (walks : Walks tree nodes (fun _ => False) refs step) (none : ∀ ref, ¬fewer ref) :
    Walks tree nodes fewer refs step := walks.weaken fun ref _ => none ref

theorem perm (same : refs.Perm others) (walks : Walks tree nodes excused refs step) :
    Walks tree nodes excused others step := by
  intro known model isKnown consistent ready isNew once
  obtain ⟨after, isAfter, consistent, ready, kept, settled⟩ :=
    walks known model isKnown consistent ready
      (fun ref member => isNew ref (same.subset member)) (same.nodup_iff.2 once)
  exact ⟨after, isAfter, consistent, ready, kept.mono same.subset, fun ref member =>
    settled ref (same.symm.subset member)⟩

end Walks

theorem Settled.of_declared {model : Model} (consistent : Consistent tree nodes model)
    (isDeclared : (model.declaredSymbol ref).isSome) : Settled tree model ref := by
  refine ⟨fun _ => isDeclared, fun name isName => ?_⟩
  obtain ⟨other, declares⟩ := consistent.exists_declaredName isDeclared
  rw [isName] at declares
  cases declares

theorem Declarable.mono (declarable : Declarable tree nodes scope ref name)
    (more : nodes <+: known) :
    Declarable tree known scope ref name := by
  obtain ⟨node, isNode, inside⟩ := declarable.inside
  obtain ⟨later, rfl⟩ := more
  exact ⟨declarable.attached, declarable.stored, declarable.named, node,
    List.getElem?_append_left (List.getElem?_eq_some_iff.1 isNode).1 ▸ isNode, inside⟩

section

variable {model : Model}

theorem resolveName_of_none (missing : model.lookupIn scope name = none) :
    (resolveName scope name ref model).2 = model := by
  simp only [resolveName, bind, StateT.bind, get, getThe, MonadStateOf.get, StateT.get,
    pure, missing]
  rfl

theorem resolveName_of_some {symbol : SymbolId} (found : model.lookupIn scope name = some symbol) :
    (resolveName scope name ref model).2 = (note ref (fun facts =>
        { facts with reference := some symbol, type := model.symbolType symbol }) model).2 := by
  simp only [resolveName, bind, StateT.bind, get, getThe, MonadStateOf.get, StateT.get, pure, found]

theorem settleLocal_of_some {symbol : SymbolId} (found : model.declaredSymbol ref = some symbol)
    (type : DataType) :
    (settleLocal scope name type ref model).2 = (setSymbolType symbol type model).2 := by
  simp only [settleLocal, bind, StateT.bind, get, getThe, MonadStateOf.get, StateT.get, pure, found]
  rfl

theorem settleLocal_of_none (found : model.declaredSymbol ref = none) (type : DataType) :
    (settleLocal scope name type ref model).2 = (setSymbolType model.symbols.size type
        (declare scope name .local .unknown ref model).2).2 := by
  simp only [settleLocal, bind, StateT.bind, get, getThe, MonadStateOf.get, StateT.get, pure, found]
  rfl

end

/-- Resolving a name walks over it. -/
theorem walks_resolveName (stored : tree.HasRef ref) (isName : tree.kind ref = .ident name)
    (inside : Inside tree nodes scope ref) :
    Walks tree nodes excused [ref] (resolveName scope name ref) := by
  intro known model isKnown consistent ready _ _
  obtain ⟨node, isNode, around⟩ := inside.mono isKnown
  have unnamed : (tree.kind ref).declaredName? = none := by rw [isName]; rfl
  cases found : model.lookupIn scope name with
  | none =>
    rw [resolveName_of_none found]
    refine ⟨known, List.prefix_rfl, consistent, ready, .refl model,
      List.forall_mem_singleton.2 ⟨fun isSome => ?_, ?_⟩⟩
    · rw [unnamed] at isSome
      cases isSome
    · intro other isOther _
      cases isName.symm.trans isOther
      rw [around]
      have inScopes := (List.getElem?_eq_some_iff.1 isNode).1
      exact consistent.lacks_of_lookupWithin ready isNode (consistent.opened ▸ inScopes) found
  | some symbol =>
    rw [resolveName_of_some found]
    obtain ⟨declaration, isSymbol, resolves⟩ :=
      consistent.resolves_of_lookupWithin ready isNode found
    obtain ⟨consistent, kept, isReference⟩ :=
      consistent.noteReference stored isName isSymbol (around ▸ resolves) _
    refine ⟨known, List.prefix_rfl, consistent, kept.ready ready, kept.mono (List.nil_subset _),
      List.forall_mem_singleton.2 ⟨fun isSome => ?_, fun _ _ missing => ?_⟩⟩
    · rw [unnamed] at isSome
      cases isSome
    · rw [missing] at isReference
      cases isReference

/-- Settling a local walks over its declarator, whether it was declared before or not. -/
theorem walks_settleLocal (declarable : Declarable tree nodes scope ref name) (type : DataType) :
    Walks tree nodes excused [ref] (settleLocal scope name type ref) := by
  intro known model isKnown consistent ready _ _
  cases found : model.declaredSymbol ref with
  | some symbol =>
    rw [settleLocal_of_some found]
    have alike := quiet_setSymbolType symbol type model
    have isDeclared : ((setSymbolType symbol type model).2.declaredSymbol ref).isSome := by
      rw [alike.declared, found]
      rfl
    exact ⟨known, List.prefix_rfl, alike.consistent consistent, alike.ready ready, alike.keeps _,
      List.forall_mem_singleton.2 (.of_declared (alike.consistent consistent) isDeclared)⟩
  | none =>
    have declarable := declarable.mono isKnown
    have stored : ∃ number < model.facts.size, ref = some number :=
      consistent.sized ▸ declarable.stored
    have declared := consistent.declare .local .unknown declarable found
    have kept := @keeps_declare _ scope _ name .local .unknown stored
    have isDeclared :
        ((declare scope name .local .unknown ref model).2.declaredSymbol ref).isSome := by
      rw [declaredSymbol_declare _ _ stored, if_pos rfl]
      rfl
    rw [settleLocal_of_none found]
    have alike :=
      quiet_setSymbolType model.symbols.size type (declare scope name .local .unknown ref model).2
    refine ⟨known, List.prefix_rfl, alike.consistent declared, alike.ready (kept.ready ready), ?_,
      List.forall_mem_singleton.2
        (.of_declared (alike.consistent declared) (alike.declared ref ▸ isDeclared))⟩
    exact (kept.trans (alike.keeps [])).mono (by simp)

/-- Opening a scope at a node, declaring the names that the scope has from its start and walking
over what is inside. -/
theorem walks_opened (front extra : List Ref) {first rest : ScopeId → Resolving PUnit}
    (inside : Inside tree nodes scope ref) (isFront : tree.upFront ref = front)
    (declares : ∀ known, nodes <+: known →
      Declares tree (known ++ [ref]) known.length front (first known.length))
    (walks : ∀ known, nodes <+: known →
      Walks tree (known ++ [ref]) excused refs (rest known.length))
    (within : front.Sublist (extra ++ refs))
    (excuse : ∀ other ∈ refs, other ∈ front → other ∉ extra → excused other)
    (extras : ∀ other ∈ extra, other ∈ front ∨ Inert tree other) :
    Walks tree nodes (fun _ => False) (extra ++ refs)
      (openScope scope >>= fun inner => first inner >>= fun _ => rest inner) := by
  intro known model isKnown consistent ready isNew once
  obtain ⟨node, isNode, around⟩ := inside.mono isKnown
  have undeclared {other : Ref}
      (member : other ∈ extra ++ refs) : model.declaredSymbol other = none :=
    Option.not_isSome_iff_eq_none.1 (isNew other member)
  have opened := consistent.openScope isNode around
  have isInner : (openScope scope model).1 = known.length := consistent.opened
  have keptOpen := keeps_openScope scope model []
  -- The names from the start are declared in the new scope, which makes it ready.
  obtain ⟨declared, keptFront, found⟩ := declares known isKnown (openScope scope model).2 opened
    (fun other member => undeclared (within.subset member)) (once.sublist within)
  have readyOpened :
      Ready tree (known ++ [ref]) (first known.length (openScope scope model).2).2 := by
    intro id opener name isOpener hasName
    rw [List.getElem?_append] at isOpener
    split at isOpener
    · exact keptFront.binds (keptOpen.binds (ready isOpener hasName))
    · rename_i later
      have last := (List.getElem?_eq_some_iff.1 isOpener).1
      obtain rfl : id = known.length := by
        simp only [List.length_singleton] at last
        change @Eq Nat _ _
        omega
      simp only [Nat.sub_self, List.getElem?_cons_zero, Option.some.injEq] at isOpener
      obtain ⟨declaration, isFirst, isName⟩ := hasName
      rw [← isOpener, isFront] at isFirst
      exact (found declaration isFirst).2 name isName
  have isNewInside (other : Ref) (member : other ∈ refs)
      (isSome : ((first known.length (openScope scope model).2).2.declaredSymbol other).isSome) :
      excused other := by
    refine excuse other member ?_ fun before => (List.nodup_append'.1 once).2.2 before member
    by_contra absent
    rw [keptFront.elsewhere absent (undeclared (List.mem_append_right _ member))] at isSome
    cases isSome
  obtain ⟨after, isAfter, consistentAfter, readyAfter, keptRest, settled⟩ :=
    walks known isKnown (known ++ [ref]) _
    List.prefix_rfl declared readyOpened isNewInside (List.nodup_append'.1 once).2.1
  have same : (openScope scope >>= fun inner => first inner >>= fun _ => rest inner) model =
      rest known.length (first known.length (openScope scope model).2).2 := by
    rw [← isInner]
    rfl
  rw [same]
  refine ⟨after, (List.prefix_append _ _).trans isAfter, consistentAfter, readyAfter, ?_,
    fun other member => ?_⟩
  · refine ((keptOpen.trans keptFront).trans keptRest).mono
      (List.append_subset.2 ⟨?_, List.subset_append_right _ _⟩)
    exact List.append_subset.2 ⟨List.nil_subset _, within.subset⟩
  · rcases List.mem_append.1 member with member | member
    · rcases extras other member with isFirst | inert
      · exact .of_declared consistentAfter (keptRest.declared (found other isFirst).1)
      · exact .of_inert inert
    · exact settled other member

section

variable {whole part child : Outline} (program : tree.IsProgram whole)

include program

/-- A node at whose form nothing is to be known. -/
theorem inert_of_shows (within : part ∈ whole.subterms) (unnamed : part.kind.declaredName? = none)
    (noName : part.kind.isIdent = false) : Inert tree part.ref := by
  have shows := all_iff_subterms.1 program.stands.shown part within
  refine ⟨shows.declaredName?.trans unnamed, fun name isName => ?_⟩
  have same : part.kind = .ident name := (isName ▸ shows.depicts).ident
  rw [same] at noName
  cases noName

/-- Nothing is to be known inside types. -/
theorem inert_of_isType (sorts : whole.All HasSorts) (within : part ∈ whole.subterms)
    (isType : part.kind.isType) :
    ∀ ref ∈ part.refs, Inert tree ref := by
  intro ref member
  obtain ⟨inner, below, rfl⟩ := mem_refs.1 member
  have isType := isType_of_mem_subterms (sorts.subterm within) isType below
  refine inert_of_shows program (subterms_trans within below) ?_ ?_
  all_goals cases form : inner.kind <;> rw [form] at isType <;> first | rfl | cases isType

/-- A child around which no scope is opened lies in the scope of the node above it. -/
theorem inside_child (within : part ∈ whole.subterms) (held : child ∈ part.children)
    (closed : tree.opensAround part.ref child.ref = false)
    (inside : Inside tree nodes scope part.ref) :
    Inside tree nodes scope child.ref := by
  obtain ⟨node, isNode, around⟩ := inside
  exact ⟨node, isNode, by rw [program.scopesAround_child within held, closed,
    if_neg Bool.false_ne_true, around]⟩

/-- A child around which a scope is opened lies in this scope. -/
theorem inside_opened (within : part ∈ whole.subterms) (held : child ∈ part.children)
    (opens : tree.opensAround part.ref child.ref = true) :
    Inside tree (known ++ [part.ref]) known.length child.ref :=
  ⟨part.ref,
    List.getElem?_concat_length, by rw [program.scopesAround_child within held, if_pos opens]⟩

/-- A parameter or declarator declares its name in the scope that it lies in. -/
theorem declarable_of_inside (within : part ∈ whole.subterms)
    (isName : part.kind.declaredName? = some name)
    (noLoop : part.kind.isForEach = false)
    (inside : Inside tree nodes scope part.ref) : Declarable tree nodes scope part.ref name := by
  have shows := all_iff_subterms.1 program.stands.shown part within
  obtain ⟨node, isNode, around⟩ := inside
  refine ⟨program.attached ▸ refs_subset within (ref_mem_refs part), shows.hasRef,
    shows.declaredName?.trans isName, node, isNode, ?_⟩
  rw [Tree.scopeOf?]
  split
  · rename_i isLoop
    obtain ⟨type, collection, body, same, -⟩ := (isLoop ▸ shows.depicts).forEach
    rw [same] at noLoop
    cases noLoop
  · rw [around, List.head?_cons]

end

theorem walks_resolveSome {term : Option Outline}
    (each : ∀ inner ∈ term, Walks tree nodes excused inner.refs (resolve scope given inner)) :
    Walks tree nodes excused (term.toList.flatMap Term.refs) (resolveSome scope given term) := by
  cases term with
  | none =>
    rw [resolveSome]
    exact .silent (.pure _)
  | some term =>
    rw [resolveSome, Option.toList_some, List.flatMap_singleton]
    exact each term rfl

theorem walks_resolveAll
    (each : ∀ inner ∈ terms, Walks tree nodes excused inner.refs (resolve scope given inner)) :
    Walks tree nodes excused (terms.flatMap Term.refs) (resolveAll scope given terms) := by
  induction terms with
  | nil =>
    rw [resolveAll]
    exact .silent (.pure _)
  | cons term terms ih =>
    rw [resolveAll]
    exact (each term (.head _)).bind fun _ => ih fun other member => each other (.tail _ member)

/-- Resolving declarators walks over them. -/
theorem walks_resolveDeclarators {written : Option DataType}
    (each : ∀ declarator ∈ terms, declarator.kind.isDeclarator ∧
      (∀ name, declarator.kind.declaredName? = some name →
        Declarable tree nodes scope declarator.ref name) ∧ ∀ value ∈ declarator.children,
        Walks tree nodes excused value.refs (resolve scope .unknown value)) :
    Walks tree nodes excused (terms.flatMap Term.refs)
    (resolveDeclarators scope written terms) := by
  induction terms with
  | nil =>
    rw [resolveDeclarators]
    exact .silent (.pure _)
  | cons term terms ih =>
    obtain ⟨isDeclarator, declarable, values⟩ := each term (.head _)
    rcases term with ⟨place, form⟩
    cases form <;> cases isDeclarator
    rename_i name value
    rw [resolveDeclarators]
    have value' : Walks tree nodes excused (value.toList.flatMap Term.refs)
        (resolveSome scope .unknown value) := walks_resolveSome fun inner isInner =>
      values inner (by simp [children, kind, parts, Option.mem_def.1 isInner])
    have same : (value.toList.flatMap Term.refs ++ ([place.ref] ++ terms.flatMap Term.refs)).Perm
        ((Term.node place (.declarator name value) :: terms).flatMap Term.refs) := by
      rw [List.flatMap_cons, refs_node]
      simp only [parts, Kind.slots, List.flatMap_cons, List.flatMap_nil, Slot.terms,
        List.append_nil]
      exact List.perm_append_comm_assoc _ [place.ref] _
    refine .perm same ?_
    exact (Walks.silent (quiet_enter _ _)).bind fun _ => value'.bind fun _ =>
      (Walks.silent .get).bind fun _ => (walks_settleLocal (declarable name rfl) _).bind fun _ =>
      ih fun other member => each other (.tail _ member)

/-- The places of some terms are among those of their parts. -/
theorem map_ref_sublist
    (terms : List Outline) : (terms.map Term.ref).Sublist (terms.flatMap Term.refs) := by
  rw [List.map_eq_flatMap]
  exact List.Sublist.flatMap_right terms fun term _ => List.singleton_sublist.2 (ref_mem_refs term)

/-- What the declarators of a statement are. -/
theorem declarators_of_hasSorts (sorts : HasSorts statement)
    (member : declarator ∈ statement.declarators) :
    declarator ∈ statement.children ∧ declarator.kind.isDeclarator ∧
      statement.kind.isForEach = false ∧ statement.kind.opensScope = false := by
  rcases statement with ⟨place, form⟩
  cases form
  case localDecl type declarators =>
    have member : declarator ∈ declarators := member
    exact ⟨by simp [children, kind, parts, member], sorts.2 declarator member, rfl, rfl⟩
  all_goals exact absurd member List.not_mem_nil

/-- The places of the declarators of a statement are among those of its parts. -/
theorem declarators_sublist (statement : Outline) :
    (statement.declarators.map Term.ref).Sublist statement.refs := by
  rcases statement with ⟨place, form⟩
  cases form
  case localDecl type declarators =>
    rw [refs_node]
    simp only [parts, Kind.slots, List.flatMap_cons, List.flatMap_nil, Slot.terms, List.append_nil,
      List.flatMap_append]
    exact .cons _ ((map_ref_sublist declarators).trans (List.sublist_append_right _ _))
  all_goals exact List.nil_sublist _

section

variable {whole part : Outline} (program : tree.IsProgram whole) (sorts : whole.All HasSorts)

include program sorts

/-- A declarator lies in the scope of its statement. -/
theorem inside_declarator (within : statement ∈ whole.subterms)
    (member : declarator ∈ statement.declarators) (inside : Inside tree nodes scope statement.ref) :
    Inside tree nodes scope declarator.ref := by
  obtain ⟨held, -, noLoop, opensNone⟩ :=
    declarators_of_hasSorts (all_iff_subterms.1 sorts _ within) member
  have shows := all_iff_subterms.1 program.stands.shown _ within
  exact inside_child program within held ((shows.opensAround noLoop _).trans opensNone) inside

/-- A declarator declares its name in the scope of its statement. -/
theorem declarable_declarator (within : statement ∈ whole.subterms)
    (member : declarator ∈ statement.declarators) (inside : Inside tree nodes scope statement.ref)
    (isName : declarator.kind.declaredName? = some name) :
    Declarable tree nodes scope declarator.ref name := by
  obtain ⟨held, isDeclarator, -⟩ :=
    declarators_of_hasSorts (all_iff_subterms.1 sorts _ within) member
  exact declarable_of_inside program (subterms_child within held) isName
    (Kind.isForEach_of_isDeclarator isDeclarator)
    (inside_declarator program sorts within member inside)

/-- The initial value of a local lies in the scope of the local. -/
theorem inside_value {value : Outline} (within : declarator ∈ whole.subterms)
    (isDeclarator : declarator.kind.isDeclarator) (held : value ∈ declarator.children)
    (inside : Inside tree nodes scope declarator.ref) :
    value.kind.hasNames ∧ Inside tree nodes scope value.ref := by
  have shows := all_iff_subterms.1 program.stands.shown _ within
  have values := all_iff_subterms.1 sorts _ within
  rcases declarator with ⟨place, form⟩
  cases form <;> cases isDeclarator
  exact ⟨values value held, inside_child program within held (shows.opensAround rfl _) inside⟩

/-- Of parameters nothing but the parameters themselves declares or is a name. -/
theorem params_cases {params : List Outline}
    (areParams : ∀ param ∈ params, param ∈ whole.subterms ∧ param.kind.isParam) :
    ∀ ref ∈ params.flatMap Term.refs, ref ∈ params.map Term.ref ∨ Inert tree ref := by
  intro ref member
  obtain ⟨param, isParam, member⟩ := List.mem_flatMap.1 member
  obtain ⟨within, sort⟩ := areParams param isParam
  rw [refs_eq] at member
  rcases List.mem_cons.1 member with rfl | below
  · exact .inl (List.mem_map_of_mem isParam)
  · obtain ⟨type, held, inside⟩ := mem_innerRefs.1 below
    refine .inr (inert_of_isType program sorts (subterms_child within held) ?_ ref inside)
    have types := all_iff_subterms.1 sorts _ within
    rcases param with ⟨place, form⟩
    cases form <;> cases sort
    exact types type (by simpa [children, kind, parts] using held)

/-- Opening a scope for parameters, declaring them and walking over what follows. -/
theorem walks_openedParams {params : List Outline} {kind : SymbolKind}
    {typeOf : Option Outline → DataType}
    {rest : ScopeId → Resolving PUnit} (within : part ∈ whole.subterms)
    (areParams : ∀ param ∈ params, param ∈ part.children ∧ param.kind.isParam)
    (opens : ∀ ref, tree.opensAround part.ref ref = true) (isFront : part.upFront = params)
    (inside : Inside tree nodes scope part.ref) (walks : ∀ known, nodes <+: known →
      Walks tree (known ++ [part.ref]) (fun _ => False) refs (rest known.length)) :
    Walks tree nodes (fun _ => False) (params.flatMap Term.refs ++ refs)
      (openScope scope >>= fun inner => declareParams inner kind typeOf params >>= fun _ =>
        rest inner) := by
  have shown := program.stands.shown.subterm within
  have here {param : Outline} (member : param ∈ params) : param ∈ whole.subterms :=
    subterms_child within (areParams param member).1
  refine walks_opened (params.map Term.ref) (params.flatMap Term.refs) inside ?_
    (fun known _ => ?_) walks ?_ ?_ ?_
  · rw [Tree.Shows.upFront shown, isFront]
  · refine declares_declareParams
      (fun param member => ⟨(areParams param member).2, fun name isName => ?_⟩) _ _
    obtain ⟨held, isParam⟩ := areParams param member
    exact declarable_of_inside program (here member) isName (Kind.isForEach_of_isParam isParam)
      (inside_opened program within held (opens _))
  · exact (map_ref_sublist params).trans (List.sublist_append_left _ _)
  · exact fun other _ isFirst outside => outside ((map_ref_sublist params).subset isFirst)
  · exact params_cases program sorts fun param member => ⟨here member, (areParams param member).2⟩

/-- The declarators of statements declare their names in the scope of the statements. -/
theorem declares_declarators (each : ∀ statement ∈ statements, statement ∈ whole.subterms ∧
      Inside tree nodes scope statement.ref) :
    Declares tree nodes scope
    (statements.flatMap fun statement => statement.declarators.map Term.ref)
      (predeclare scope statements) := by
  refine declares_predeclare fun statement isStatement declarator member => ?_
  obtain ⟨within, inside⟩ := each statement isStatement
  exact ⟨(declarators_of_hasSorts (all_iff_subterms.1 sorts _ within) member).2.1,
    fun name => declarable_declarator program sorts within member inside⟩

end

/-- Where no place occurs twice, a place in one of some statements that is one of their declarators
is one of the declarators of this statement. -/
theorem mem_declarators_of_mem (once : (statements.flatMap Term.refs).Nodup)
    (isStatement : statement ∈ statements) (within : ref ∈ statement.refs)
    (member : ref ∈ statements.flatMap fun statement => statement.declarators.map Term.ref) :
    ref ∈ statement.declarators.map Term.ref := by
  obtain ⟨other, isOther, member⟩ := List.mem_flatMap.1 member
  obtain rfl : statement = other := by
    by_contra differ
    exact disjoint_of_nodup once isStatement isOther differ within
      ((declarators_sublist other).subset member)
  exact member

/-- Where no place occurs twice, a place below one of some terms is that of none of them. -/
theorem not_mem_map_ref (once : (terms.flatMap Term.refs).Nodup) {term : Outline}
    (isTerm : term ∈ terms) (below : ref ∈ term.innerRefs) : ref ∉ terms.map Term.ref := by
  intro member
  obtain ⟨other, isOther, rfl⟩ := List.mem_map.1 member
  obtain rfl : term = other := by
    by_contra differ
    exact disjoint_of_nodup once isTerm isOther differ (innerRefs_subset_refs term below)
      (ref_mem_refs other)
  exact ref_not_mem_innerRefs
    (once.sublist (List.sublist_flatten_of_mem (List.mem_map_of_mem isTerm))) below

/-- Opening a scope without names and walking over what is inside. -/
theorem walks_openedBare {rest : ScopeId → Resolving PUnit} (inside : Inside tree nodes scope ref)
    (isFront : tree.upFront ref = []) (walks : ∀ known, nodes <+: known →
      Walks tree (known ++ [ref]) (fun _ => False) refs (rest known.length)) :
    Walks tree nodes (fun _ => False) refs (openScope scope >>= rest) := by
  change Walks tree nodes _ ([] ++ refs)
    (openScope scope >>= fun inner => pure PUnit.unit >>= fun _ => rest inner)
  exact walks_opened [] [] inside isFront (fun _ _ => .quiet (.pure _)) walks (List.nil_sublist _)
    (fun _ _ isFirst _ => absurd isFirst List.not_mem_nil) (List.forall_mem_nil _)

/-- A term is walked over where resolving it in the scope around it walks over its nodes. The
declarators of a declaration may be declared before. -/
def WalkedOver (tree : Tree) (term : Outline) : Prop :=
    ∀ nodes scope given, Inside tree nodes scope term.ref →
  Walks tree nodes (· ∈ term.declarators.map Term.ref) term.refs (resolve scope given term)

theorem walks_optional {term : Option Outline}
    (each : ∀ inner ∈ term, WalkedOver tree inner ∧ Inside tree nodes scope inner.ref) :
    Walks tree nodes (fun _ => False) (term.toList.flatMap Term.refs)
    (resolveSome scope given term) :=
  walks_resolveSome fun inner isInner =>
    ((each inner isInner).1 nodes scope given (each inner isInner).2).weaken fun _ _ => False.elim

theorem walks_list
    (each : ∀ inner ∈ terms, WalkedOver tree inner ∧ Inside tree nodes scope inner.ref) :
    Walks tree nodes (fun _ => False) (terms.flatMap Term.refs) (resolveAll scope given terms) :=
  walks_resolveAll fun inner isInner =>
    ((each inner isInner).1 nodes scope given (each inner isInner).2).weaken fun _ _ => False.elim

/-- Statements whose declarators are declared before are walked over. -/
theorem walks_statements (once : (statements.flatMap Term.refs).Nodup)
    (each : ∀ statement ∈ statements, WalkedOver tree statement ∧
      Inside tree nodes scope statement.ref) :
    Walks tree nodes (· ∈ statements.flatMap fun statement => statement.declarators.map Term.ref)
      (statements.flatMap Term.refs) (resolveAll scope .unknown statements) := by
  refine walks_resolveAll fun statement member => ?_
  refine ((each statement member).1 nodes scope .unknown (each statement member).2).weaken ?_
  exact fun other isInside isLocal => mem_declarators_of_mem once member isInside isLocal

/-- A node is walked over where its form is, if nothing is to be known of the rest of the node. -/
theorem walks_node {place : Place} {form : Form Place} (extra inner : List Ref)
    (inert : ∀ ref ∈ extra, Inert tree ref)
    (same : (extra ++ inner).Perm (Term.node place form).refs)
    (walks : Walks tree nodes excused inner (resolveForm scope given place.ref form)) :
    Walks tree nodes excused (Term.node place form).refs
    (resolve scope given (.node place form)) := by
  rw [resolve]
  rw [← List.append_nil inner] at same
  exact .perm same <| (Walks.quiet (quiet_enter _ _) inert).bind fun _ => walks.bind fun _ =>
    .silent (quiet_infer _ _)

section

variable {whole : Outline} {place : Place} (program : tree.IsProgram whole)
  (sorts : whole.All HasSorts)

include program

/-- No place occurs twice below a node of a program. -/
theorem nodup_parts {form : Form Place} (within : .node place form ∈ whole.subterms) :
    ((parts form).flatMap Term.refs).Nodup := by
  have once := program.stands.once.sublist (refs_sublist within)
  rw [refs_node] at once
  exact (List.nodup_cons.1 once).2

/-- A counted loop opens a scope without names and walks over its parts inside. -/
theorem walks_forLoop {declaration condition body : Option Outline}
    {initializers incrementors : List Outline}
    (within : .node place (.forLoop declaration initializers condition incrementors body) ∈
      whole.subterms)
    (below : ∀ child ∈ parts (.forLoop declaration initializers condition incrementors body),
      WalkedOver tree child)
    (inside : Inside tree nodes scope place.ref) (given : DataType) :
    Walks tree nodes (fun _ => False)
    (declaration.toList.flatMap Term.refs ++ (initializers.flatMap Term.refs ++
        (condition.toList.flatMap Term.refs ++
          (incrementors.flatMap Term.refs ++ body.toList.flatMap Term.refs))))
      (resolveForm scope given place.ref
        (.forLoop declaration initializers condition incrementors body)) := by
  have shown := program.stands.shown.subterm within
  rw [resolveForm]
  refine walks_openedBare inside (Tree.Shows.upFront shown) fun known _ => ?_
  have each (inner : Outline)
      (member : inner ∈ parts (.forLoop declaration initializers condition incrementors body)) :
      WalkedOver tree inner ∧ Inside tree (known ++ [place.ref]) known.length inner.ref :=
    ⟨below inner member, inside_opened program within member (shown.here.opensAround rfl _)⟩
  refine (walks_optional fun inner isInner => each inner ?_).bind fun _ =>
    (walks_list fun inner isInner => each inner ?_).bind
    fun _ => (walks_optional fun inner isInner => each inner ?_).bind fun _ =>
      (walks_list fun inner isInner => each inner ?_).bind fun _ =>
      walks_optional fun inner isInner => each inner ?_
  · simp [parts, Option.mem_def.1 isInner]
  · simp [parts, isInner]
  · simp [parts, Option.mem_def.1 isInner]
  · simp [parts, isInner]
  · simp [parts, Option.mem_def.1 isInner]

/-- The collection of a loop over elements is not its body. -/
theorem ref_ne_body {type collection body : Option Outline} {inner : Outline}
    (within : .node place (.forEach type name collection body) ∈ whole.subterms)
    (isInner : inner ∈ collection) :
    inner.ref ≠ Tree.refOf body := by
  obtain rfl := Option.mem_def.1 isInner
  cases body with
  | none =>
    have isPart : inner ∈ parts (.forEach type name (some inner) none) := by simp [parts]
    have inWhole := subterms_trans within (@child_mem_subterms _ (.node place _) _ isPart)
    obtain ⟨number, -, place⟩ := program.stands.hasRef (mem_refs.2 ⟨inner, inWhole, rfl⟩)
    rw [place]
    exact Option.some_ne_none _
  | some body =>
    intro same
    have once := nodup_parts program within
    simp only [parts, Kind.slots, List.flatMap_cons, List.flatMap_nil, Slot.terms, List.append_nil,
      Option.toList_some, List.flatMap_append] at once
    have apart := (List.nodup_append'.1 (List.nodup_append'.1 once).2.1).2.2
    exact apart (ref_mem_refs inner) (same ▸ ref_mem_refs body)

/-- A loop over elements walks over its collection outside its scope, which has the variable of the
loop and is around the body. -/
theorem walks_forEach {type collection body : Option Outline}
    (within : .node place (.forEach type name collection body) ∈ whole.subterms)
    (belowCollection : ∀ inner ∈ collection, WalkedOver tree inner)
    (belowBody : ∀ inner ∈ body, WalkedOver tree inner)
    (inside : Inside tree nodes scope place.ref) (given : DataType) :
    Walks tree nodes (fun _ => False) (collection.toList.flatMap Term.refs ++
        ([] ++ ([place.ref] ++ body.toList.flatMap Term.refs)))
      (resolveForm scope given place.ref (.forEach type name collection body)) := by
  have shown := program.stands.shown.subterm within
  have shows := shown.here
  have opensAround := shows.opensAround_forEach rfl
  have isLoop : tree.kind place.ref = _ := shows.depicts.of_forEach
  have scopeOf : tree.scopeOf? place.ref = some place.ref := by rw [Tree.scopeOf?, isLoop]
  rw [resolveForm]
  refine (walks_optional fun inner isInner => ⟨belowCollection inner isInner, ?_⟩).bind fun _ =>
    (Walks.silent .get).bind fun model => ?_
  · have held : inner ∈ parts (.forEach type name collection body) := by
      simp [parts, Option.mem_def.1 isInner]
    refine inside_child program within held ?_ inside
    exact (opensAround _).trans (beq_eq_false_iff_ne.2 (ref_ne_body program within isInner))
  · refine walks_opened [place.ref] [place.ref] inside
      (Tree.Shows.upFront shown) (fun known _ => (Declares.declare ?_ _ _).discard)
      (fun known _ => walks_optional fun inner isInner => ⟨belowBody inner isInner, ?_⟩)
      (List.sublist_append_left _ _) (fun other _ isFirst new => new isFirst) fun other isFirst =>
      .inl isFirst
    · exact ⟨program.attached ▸ refs_subset within (ref_mem_refs _), shows.hasRef,
        shows.declaredName?, place.ref, List.getElem?_concat_length, scopeOf⟩
    · have held : inner ∈ parts (.forEach type name collection body) := by
        simp [parts, Option.mem_def.1 isInner]
      refine inside_opened program within held ((opensAround _).trans ?_)
      rw [Option.mem_def.1 isInner]
      exact beq_self_eq_true _

include sorts

/-- A block opens a scope with the names of its declarators and walks over its statements inside. -/
theorem walks_block (within : .node place (.block statements) ∈ whole.subterms)
    (below : ∀ statement ∈ statements, WalkedOver tree statement)
    (inside : Inside tree nodes scope place.ref)
    (given : DataType) : Walks tree nodes (fun _ => False) (statements.flatMap Term.refs)
      (resolveForm scope given place.ref (.block statements)) := by
  have shown := program.stands.shown.subterm within
  have isPart {statement : Outline}
      (member : statement ∈ statements) : statement ∈ parts (.block statements) := by
    simp [parts, member]
  have opened {statement : Outline} (member : statement ∈ statements) (known : List Ref) :
      Inside tree (known ++ [place.ref]) known.length statement.ref :=
    inside_opened program within (isPart member) (shown.here.opensAround rfl _)
  have once : (statements.flatMap Term.refs).Nodup :=
    (nodup_parts program within).sublist (by simp [parts])
  rw [resolveForm]
  refine walks_opened (statements.flatMap fun statement => statement.declarators.map Term.ref)
    [] inside ?_ (fun known _ => ?_) (fun known _ => walks_statements once fun statement member =>
    ⟨below statement member, opened member known⟩)
    ?_ (fun _ _ isFirst _ => isFirst) (List.forall_mem_nil _)
  · exact (Tree.Shows.upFront shown).trans List.map_flatMap
  · refine declares_declarators program sorts fun statement member => ⟨?_, opened member known⟩
    exact subterms_trans within (@child_mem_subterms _ (.node place _) _ (isPart member))
  · exact List.Sublist.flatMap_right _ fun statement _ => declarators_sublist statement

/-- A declaration walks over its declarators, which may be declared before. -/
theorem walks_localDecl {type : Option Outline} {declarators : List Outline}
    (within : .node place (.localDecl type declarators) ∈ whole.subterms)
    (areDeclarators : ∀ declarator ∈ declarators, declarator.kind.isDeclarator)
    (below : ∀ declarator ∈ declarators, ∀ value ∈ declarator.children, value.kind.hasNames →
      WalkedOver tree value)
    (inside : Inside tree nodes scope place.ref) (given : DataType) :
    Walks tree nodes (· ∈ declarators.map Term.ref) (declarators.flatMap Term.refs)
      (resolveForm scope given place.ref (.localDecl type declarators)) := by
  have once : (declarators.flatMap Term.refs).Nodup :=
    (nodup_parts program within).sublist (by simp [parts])
  rw [resolveForm]
  refine walks_resolveDeclarators fun declarator member =>
    ⟨areDeclarators declarator member, fun name isName => ?_, fun value held => ?_⟩
  · exact declarable_declarator program sorts within member inside isName
  · have isPart : declarator ∈ parts (.localDecl type declarators) := by simp [parts, member]
    obtain ⟨named, insideValue⟩ := inside_value program sorts
      (subterms_trans within (@child_mem_subterms _ (.node place _) _ isPart))
      (areDeclarators declarator member) held (inside_declarator program sorts within member inside)
    refine (below declarator member value held named nodes scope .unknown insideValue).weaken
      fun other isBelow isLocal => absurd isLocal ?_
    exact not_mem_map_ref once member (mem_innerRefs.2 ⟨value, held, isBelow⟩)

/-- Names mean something in every term that is no type, parameter or declarator, and resolving it
walks over it. -/
theorem walkedOver_of_hasNames {term : Outline} (within : term ∈ whole.subterms)
    (named : term.kind.hasNames) :
    WalkedOver tree term := by
  -- Declarators are passed over, so what is below the children is resolved from here as well.
  suffices both : (term.kind.hasNames → WalkedOver tree term) ∧
      ∀ child ∈ term.children, child.kind.hasNames → WalkedOver tree child from both.1 named
  clear named
  induction term using Term.induction with
  | step place form ih =>
    have here {child : Outline} (member : child ∈ parts form) : child ∈ whole.subterms :=
      subterms_trans within (@child_mem_subterms _ (.node place form) _ member)
    have below (child : Outline) (member : child ∈ parts form) : child.kind.hasNames →
        WalkedOver tree child := (ih child member (here member)).1
    refine ⟨fun named nodes scope given inside => ?_, below⟩
    have shows := all_iff_subterms.1 program.stands.shown _ within
    have sort := all_iff_subterms.1 sorts _ within
    have inert (unnamed : form.declaredName? = none) (noName : form.isIdent = false) :
        ∀ ref ∈ [place.ref], Inert tree ref :=
      List.forall_mem_singleton.2 (inert_of_shows program within unnamed noName)
    have types {type : Option Outline} (held : ∀ inner ∈ type, inner ∈ parts form)
        (areTypes : ∀ inner ∈ type, inner.kind.isType) :
        ∀ ref ∈ type.toList.flatMap Term.refs, Inert tree ref := by
      intro ref member
      obtain ⟨inner, isInner, member⟩ := List.mem_flatMap.1 member
      have isInner := Option.mem_toList.1 isInner
      exact inert_of_isType program sorts (here (held inner isInner))
        (areTypes inner isInner) ref member
    -- Most nodes open no scope, and names mean something in all that is below them.
    have plain (noLoop : form.isForEach = false) (opensNone : form.opensScope = false)
        (sort : ∀ child ∈ parts form, child.kind.hasNames) (child : Outline)
        (member : child ∈ parts form) : WalkedOver tree child ∧ Inside tree nodes scope child.ref :=
      ⟨below child member (sort child member),
        inside_child program within member ((shows.opensAround noLoop _).trans opensNone) inside⟩
    have opened (opens : form.opensScope = true)
        (noLoop : form.isForEach = false) {known : List Ref} {child : Outline}
        (member : child ∈ parts form) : Inside tree (known ++ [place.ref]) known.length child.ref :=
      inside_opened program within member ((shows.opensAround noLoop _).trans opens)
    cases form
    case unit | param | declarator | typeRef => cases named
    case localDecl type declarators =>
      obtain ⟨isType, areDeclarators⟩ := sort
      refine walks_node ([place.ref] ++ type.toList.flatMap Term.refs) _ ?_ ?_
        (walks_localDecl program sorts within
        areDeclarators (fun declarator member => (ih declarator ?_ (here ?_)).2) inside given)
      · exact List.forall_mem_append.2 ⟨inert rfl rfl, types (by simp +contextual [parts]) isType⟩
      · exact .of_eq (by simp [parts])
      all_goals simp [parts, member]
    all_goals refine Walks.unexcused ?_ fun _ => List.not_mem_nil
    case method result name params body =>
      obtain ⟨isType, areParams, named⟩ := sort
      refine walks_node ([place.ref] ++ result.toList.flatMap Term.refs)
        (params.flatMap Term.refs ++ body.toList.flatMap Term.refs) ?_ (.of_eq (by simp [parts])) ?_
      · exact List.forall_mem_append.2 ⟨inert rfl rfl, types (by simp +contextual [parts]) isType⟩
      · rw [resolveForm]
        refine walks_openedParams program sorts within
          (fun param member => ⟨by simp [children, kind, parts, member], areParams param member⟩)
          (shows.opensAround rfl) rfl inside fun known _ => walks_optional fun inner isInner => ?_
        have held : inner ∈ parts (.method result name params body) := by
          simp [parts, Option.mem_def.1 isInner]
        exact ⟨below inner held (named inner isInner), opened rfl rfl held⟩
    case lambda params body parenthesized =>
      obtain ⟨areParams, named⟩ := sort
      refine walks_node [place.ref] (params.flatMap Term.refs ++ body.toList.flatMap Term.refs)
        (inert rfl rfl) (.of_eq (by simp [parts])) ?_
      rw [resolveForm]
      refine walks_openedParams program sorts within
        (fun param member => ⟨by simp [children, kind, parts, member], areParams param member⟩)
        (shows.opensAround rfl) rfl inside fun known _ => walks_optional fun inner isInner => ?_
      have held : inner ∈ parts (.lambda params body parenthesized) := by
        simp [parts, Option.mem_def.1 isInner]
      exact ⟨below inner held (named inner isInner), opened rfl rfl held⟩
    case block statements =>
      have isPart {statement : Outline}
          (member : statement ∈ statements) : statement ∈ parts (.block statements) := by
        simp [parts, member]
      exact walks_node [place.ref] _ (inert rfl rfl)
        (.of_eq (by simp [parts])) (walks_block program sorts within (fun statement member =>
        below statement (isPart member) (sort statement (isPart member))) inside given)
    case forLoop declaration initializers condition incrementors body =>
      exact walks_node [place.ref] _ (inert rfl rfl) (.of_eq (by simp [parts]))
        (walks_forLoop program within
        (fun child member => below child member (sort child member)) inside given)
    case forEach type name collection body =>
      obtain ⟨isType, namedCollection, namedBody⟩ := sort
      refine walks_node _ _ (types (by simp +contextual [parts]) isType) ?_
        (walks_forEach program within
        (fun inner isInner => below inner ?_ (namedCollection inner isInner))
        (fun inner isInner => below inner ?_ (namedBody inner isInner)) inside given)
      · rw [refs_node, List.nil_append, ← List.append_assoc]
        refine List.perm_middle.trans (.of_eq ?_)
        simp [parts]
      all_goals simp [parts, Option.mem_def.1 isInner]
    case ident name =>
      refine walks_node [] [place.ref] (List.forall_mem_nil _) (.of_eq (by simp [parts])) ?_
      rw [resolveForm]
      exact walks_resolveName shows.hasRef shows.depicts.of_ident inside
    case int | str | bool | null =>
      refine walks_node [place.ref] [] (inert rfl rfl) (.of_eq (by simp [parts])) ?_
      rw [resolveForm]
      exact .silent (.pure _)
    case invoke callee arguments =>
      refine walks_node [place.ref]
        (callee.toList.flatMap Term.refs ++ ([] ++ arguments.flatMap Term.refs))
        (inert rfl rfl) (.of_eq (by simp [parts])) ?_
      rw [resolveForm]
      refine (walks_optional fun inner isInner => plain rfl rfl sort inner ?_).bind fun _ =>
        (Walks.silent .get).bind
        fun _ => walks_list fun inner isInner => plain rfl rfl sort inner ?_
      · simp [parts, Option.mem_def.1 isInner]
      · simp [parts, isInner]
    case index receiver arguments =>
      refine walks_node [place.ref]
        (receiver.toList.flatMap Term.refs ++ arguments.flatMap Term.refs)
        (inert rfl rfl) (.of_eq (by simp [parts])) ?_
      rw [resolveForm]
      refine (walks_optional fun inner isInner => plain rfl rfl sort inner ?_).bind fun _ =>
        walks_list fun inner isInner => plain rfl rfl sort inner ?_
      · simp [parts, Option.mem_def.1 isInner]
      · simp [parts, isInner]
    case ifStmt condition thenBranch elseBranch =>
      refine walks_node [place.ref] (condition.toList.flatMap Term.refs ++
        (thenBranch.toList.flatMap Term.refs ++ elseBranch.toList.flatMap Term.refs))
        (inert rfl rfl) (.of_eq (by simp [parts])) ?_
      rw [resolveForm]
      refine (walks_optional fun inner isInner => plain rfl rfl sort inner ?_).bind fun _ =>
        (walks_optional fun inner isInner => plain rfl rfl sort inner ?_).bind fun _ =>
        walks_optional fun inner isInner => plain rfl rfl sort inner ?_
      all_goals simp [parts, Option.mem_def.1 isInner]
    case exprStmt child | returnStmt child | member child _ _ | argument _ child | unary
      _ child | paren child =>
      refine walks_node [place.ref] (child.toList.flatMap Term.refs) (inert rfl rfl)
        (.of_eq (by simp [parts])) ?_
      rw [resolveForm]
      refine walks_optional fun inner isInner => plain rfl rfl sort inner ?_
      simp [parts, Option.mem_def.1 isInner]
    case whileLoop first second | binary _ first second | assign _ first second =>
      refine walks_node [place.ref]
        (first.toList.flatMap Term.refs ++ second.toList.flatMap Term.refs)
        (inert rfl rfl) (.of_eq (by simp [parts])) ?_
      rw [resolveForm]
      refine (walks_optional fun inner isInner => plain rfl rfl sort inner ?_).bind fun _ =>
        walks_optional fun inner isInner => plain rfl rfl sort inner ?_
      all_goals simp [parts, Option.mem_def.1 isInner]

end

/-- Before the walk a model is consistent with the tree, the unit having its scope. -/
theorem consistent_blank {whole : Outline} (program : tree.IsProgram whole) :
    Consistent tree [whole.ref] (blank tree.size) := by
  have unit {id : Nat} {node : Ref} {scope : Scope} (isNode : [whole.ref][id]? = some node)
      (isScope : (blank tree.size).scopes[id]? = some scope) :
      node = whole.ref ∧ scope = ⟨none, []⟩ := by
    cases id with
    | zero => exact ⟨(Option.some.inj isNode).symm, (Option.some.inj isScope).symm⟩
    | succ id => cases isNode
  refine ⟨Array.size_replicate, rfl, fun isNode isScope _ => ?_, fun isNode isScope parent => ?_,
    fun isNode isScope isBound => ?_, fun {ref symbol} => ?_, fun isSymbol => ?_,
    fun {ref name symbol} _ isReference => ?_⟩
  · rw [(unit isNode isScope).1, program.scopesAround_root]
  · rw [(unit isNode isScope).2] at parent
    cases parent
  · rw [(unit isNode isScope).2] at isBound
    cases isBound
  · rw [declaredSymbol, factsOf_blank]
    refine iff_of_false (fun same => ?_) fun some => ?_
    · cases same
    · obtain ⟨name, same⟩ := some
      cases same
  · cases isSymbol
  · rw [symbolOf, factsOf_blank] at isReference
    cases isReference

/-- Building the model of a program whose parts stand in their places walks over all of its nodes
but the unit. -/
theorem exists_consistent_build {whole : Outline} (program : tree.IsProgram whole)
    (sorts : whole.All HasSorts)
    {place : Place} {members : List Outline} (isUnit : whole = .node place (.unit members)) :
    ∃ nodes, Consistent tree nodes (build tree) ∧
    ∀ ref ∈ whole.refs, Settled tree (build tree) ref := by
  subst isUnit
  have shows := program.stands.shown.here
  have within := self_mem_subterms (Term.node place (.unit members))
  have onceMembers : (members.flatMap Term.refs).Nodup :=
    (nodup_parts program within).sublist (by simp [parts])
  have isPart {member : Outline}
      (isMember : member ∈ members) : member ∈ parts (.unit members) := by simp [parts, isMember]
  have here {member : Outline}
      (isMember : member ∈ members) : member ∈ (Term.node place (.unit members)).subterms :=
    child_mem_subterms (isPart isMember)
  have inside {member : Outline}
      (isMember : member ∈ members) : Inside tree [place.ref] rootScope member.ref :=
    @inside_opened _ [] _ _ _ program within (isPart isMember) (shows.opensAround rfl _)
  rw [program.build_eq, resolve, resolveForm]
  -- The unit has its scope before the walk, so only the names in it are to be declared.
  have entered := quiet_enter rootScope place.ref (blank tree.size)
  have isNew
      (ref : Ref) : (enter rootScope place.ref (blank tree.size)).2.declaredSymbol ref = none := by
    rw [entered.declared, declaredSymbol, factsOf_blank]
    rfl
  have front := List.Sublist.flatMap_right members fun statement _ => declarators_sublist statement
  obtain ⟨declared, kept, found⟩ :=
    declares_declarators program sorts (fun statement member => ⟨here member, inside member⟩)
    _ (entered.consistent (consistent_blank program)) (fun ref _ => isNew ref)
      (onceMembers.sublist front)
  have ready : Ready tree [place.ref]
      (predeclare rootScope members (enter rootScope place.ref (blank tree.size)).2).2 := by
    intro id node name isNode hasName
    cases id with
    | succ id => cases isNode
    | zero =>
      obtain rfl := Option.some.inj isNode
      obtain ⟨declaration, isFirst, isName⟩ := hasName
      have isFront : tree.upFront place.ref = members.flatMap fun statement =>
          statement.declarators.map Term.ref :=
        (Tree.Shows.upFront program.stands.shown).trans List.map_flatMap
      rw [isFront] at isFirst
      exact (found declaration isFirst).2 name isName
  have walks : Walks tree [place.ref]
      (· ∈ members.flatMap fun statement => statement.declarators.map Term.ref)
      (members.flatMap Term.refs) (resolveAll rootScope .unknown members) := by
    refine walks_statements onceMembers fun statement member => ⟨?_, inside member⟩
    exact walkedOver_of_hasNames program sorts (here member) (sorts.here statement (isPart member))
  have onlyFront (ref : Ref) (isSome : ((predeclare rootScope members
      (enter rootScope place.ref (blank tree.size)).2).2.declaredSymbol ref).isSome) :
      ref ∈ members.flatMap fun statement => statement.declarators.map Term.ref := by
    by_contra absent
    rw [kept.elsewhere absent (isNew ref)] at isSome
    cases isSome
  obtain ⟨nodes, -, consistent, -, -, settled⟩ :=
    walks _ _ List.prefix_rfl declared ready (fun ref _ => onlyFront ref)
    onceMembers
  have inferred := quiet_infer place.ref (.unit members)
  refine ⟨nodes, (inferred _).consistent consistent, fun ref member => ?_⟩
  rw [refs_node] at member
  rcases List.mem_cons.1 member with rfl | member
  · exact .of_inert (inert_of_shows program within rfl rfl)
  · refine (settled ref ?_).keep ((inferred _).keeps [])
    simpa [parts] using member

end Model

open Term

/-- In the model of a source text declarators, parameters and loops over elements have symbols and
nothing else has; each symbol belongs to one of them, whose name it has. A name that refers to a
symbol has its name and lies in the scope in which the symbol is declared, and no scope around it
that lies further inside has the name from its start. A name that refers to nothing is one that no
scope around it has from its start. -/
theorem Tree.build_scopes_lexically {clock : Nat} {source : String} {tree : Tree}
    (parsed : Tree.parse clock source = .ok tree) :
    (∀ ref, ((Model.build tree).declaredSymbol ref).isSome ↔
      ref ∈ tree.attached ∧ (tree.kind ref).declaredName?.isSome) ∧
    (∀ ref symbol, (Model.build tree).declaredSymbol ref = some symbol ↔
      ∃ data, (Model.build tree).symbols[symbol]? = some data ∧ data.declaration = ref) ∧
    (∀ data ∈ (Model.build tree).symbols, (tree.kind data.declaration).declaredName?
      = some data.name) ∧
    ∀ ref ∈ tree.attached, ∀ name, tree.kind ref = .ident name →
      (∀ symbol, (Model.build tree).symbolOf ref = some symbol →
        ∃ data, (Model.build tree).symbols[symbol]? = some data ∧ data.name = name ∧
          tree.Resolves (tree.scopesAround ref) name data.declaration) ∧
      ((Model.build tree).symbolOf ref = none → tree.Lacks (tree.scopesAround ref) name) := by
  obtain ⟨term, outline, read, program, records⟩ := exists_isProgram_of_parse parsed
  have shape : outline.shape = term.shape := by rw [← records, shape_map]
  have readable := SourceTerm.readable_of_parse read
  rw [← shape] at readable
  have sorts : outline.All HasSorts := by
    have sound := readable.sound
    rw [Term.shape, all_map_iff] at sound
    exact sound.mono fun part isSound => hasSorts_of_isFormed isSound.formed
  obtain ⟨place, members, isUnit⟩ : ∃ place members, outline = .node place (.unit members) := by
    have isUnit := readable.isUnit
    rcases outline with ⟨place, form⟩
    cases form <;> first | exact ⟨place, _, rfl⟩ | cases isUnit
  obtain ⟨nodes, consistent, settled⟩ := Model.exists_consistent_build program sorts isUnit
  rw [program.attached]
  have data_of {symbol : SymbolId} {name : String} {ref : Ref}
      (isSymbol : (Model.build tree).signature? symbol = some (name, ref)) :
      ∃ data, (Model.build tree).symbols[symbol]? = some data ∧ data.name = name ∧
        data.declaration = ref := by
    obtain ⟨data, found, same⟩ := Option.map_eq_some_iff.1 isSymbol
    cases same
    exact ⟨data, found, rfl, rfl⟩
  have signature {symbol : SymbolId} {data : Symbol}
      (found : (Model.build tree).symbols[symbol]? = some data) :
      (Model.build tree).signature? symbol = some (data.name, data.declaration) := by
    rw [Model.signature?, found]
    rfl
  refine ⟨fun ref => ⟨fun isDeclared => ?_, fun declares => (settled ref declares.1).1 declares.2⟩,
    fun ref symbol => ?_, fun data member => ?_, fun ref member name isName =>
    ⟨fun symbol refers => ?_, (settled ref member).2 name isName⟩⟩
  · obtain ⟨symbol, isSymbol⟩ := Option.isSome_iff_exists.1 isDeclared
    obtain ⟨name, isSymbol⟩ := consistent.declared.1 isSymbol
    obtain ⟨member, named⟩ := consistent.named isSymbol
    exact ⟨program.attached ▸ member, named ▸ rfl⟩
  · rw [consistent.declared]
    constructor
    · rintro ⟨name, isSymbol⟩
      obtain ⟨data, found, -, isDeclaration⟩ := data_of isSymbol
      exact ⟨data, found, isDeclaration⟩
    · rintro ⟨data, found, rfl⟩
      exact ⟨data.name, signature found⟩
  · obtain ⟨symbol, found⟩ := Array.mem_iff_getElem?.1 member
    exact (consistent.named (signature found)).2
  · obtain ⟨declaration, isSymbol, resolves⟩ := consistent.refers isName refers
    obtain ⟨data, found, isName, rfl⟩ := data_of isSymbol
    exact ⟨data, found, isName, resolves⟩

/-- In the body of a loop a local of the block shadows the variable of the loop, also before its
declaration. -/
theorem Tree.local_shadows_loop_variable : ∃ tree : Tree,
    Tree.parse 0 "var x = 1; foreach (var y in x) { z = y; var y = x; }" = .ok tree ∧
      (∃ data, (Model.build tree).symbols[2]? = some data ∧ data.name = "y" ∧
        tree.Resolves (tree.scopesAround (some 7)) "y" data.declaration) ∧
      tree.Lacks (tree.scopesAround (some 6)) "z" := by
  have names : (Tree.parse 0 "var x = 1; foreach (var y in x) { z = y; var y = x; }").toOption.any
      (fun tree =>
      decide (some 7 ∈ tree.attached) && decide (tree.kind (some 7) = .ident "y") &&
        decide ((Model.build tree).symbolOf (some 7) = some 2) && decide (some 6 ∈ tree.attached) &&
        decide (tree.kind (some 6) = .ident "z") &&
          decide ((Model.build tree).symbolOf (some 6) = none)) = true := by
    decide +kernel
  obtain ⟨tree, parsed, names⟩ := exists_of_any names
  simp only [Bool.and_eq_true, decide_eq_true_eq] at names
  obtain ⟨⟨⟨⟨⟨inside, isName⟩, refers⟩, inside'⟩, isName'⟩, missing⟩ := names
  obtain ⟨-, -, -, resolved⟩ := build_scopes_lexically parsed
  exact ⟨tree, parsed, (resolved _ inside _ isName).1 2 refers,
    (resolved _ inside' _ isName').2 missing⟩

end Refactory
