import Refactory.Proofs.Model.Scoping

/-!
# What a lookup can miss

Names are resolved while the walk goes on, with the bindings that there are at the time; a lookup at
a node afterwards sees the bindings of the whole walk. Bindings are never taken away, and a scope
keeps the scope around it (`Model.Grows`), so what was bound in a scope or around it is bound there
in the end (`Model.Reaches`). A step of the walk explores some terms (`Model.Explores`): the names
that it resolves are declared in the part of the program that it is about, or they are bound in the
scope that it starts in or around that one. Steps one after the other explore the terms of both
(`Model.Explores.bind`), a step inside a new scope explores as much as seen from the scope around it
(`Model.Explores.opened`), and resolving a term explores it (`Model.explores_resolve`).

So where a lookup at a node finds nothing, all uses of the name below the node belong to
declarations below the node (`Tree.WellFormed.declared_inside_of_lookupAt`).
-/
namespace Refactory

namespace Model

open Term

variable {α β : Type} {model before middle after : Model} {name : String} {symbol : SymbolId}
  {scope outer : ScopeId} {owners others refs more : List Ref} {ref : Ref}

/-- A name is bound to a symbol in a scope or in one around it. -/
inductive Reaches (model : Model) (name : String) (symbol : SymbolId) : ScopeId → Prop
  /-- It is bound in the scope itself. -/
  | here {scope : ScopeId} {inner : Scope} : model.scopes[scope]? = some inner →
      (name, symbol) ∈ inner.bindings →
      Reaches model name symbol scope
  /-- It is bound in the scope around the scope or further outside. -/
  | outward {scope outer : ScopeId} {inner : Scope} : model.scopes[scope]? = some inner →
      inner.parent = some outer →
      Reaches model name symbol outer → Reaches model name symbol scope

/-- A scope is opened after the scope around it. -/
def Ordered (model : Model) : Prop :=
    ∀ {id outer : ScopeId} {inner : Scope}, model.scopes[id]? = some inner →
  inner.parent = some outer → outer < id

/-- What a lookup finds is bound in the scope or around it. -/
theorem reaches_of_lookupWithin {bound : Nat}
    (found : model.lookupWithin bound scope name = some symbol) :
    model.Reaches name symbol scope := by
  induction bound generalizing scope with
  | zero => cases found
  | succ bound ih =>
    obtain ⟨inner, isInner, -⟩ := Option.bind_eq_some_iff.1 found
    rw [lookupWithin_succ isInner] at found
    rcases Option.or_eq_some_iff.1 found with here | ⟨-, outside⟩
    · obtain ⟨front, back, same, -⟩ := List.lookup_eq_some_iff.1 here
      exact .here isInner (same ▸ List.mem_append_right _ (.head _))
    · obtain ⟨outer, isOuter, outside⟩ := Option.bind_eq_some_iff.1 outside
      exact .outward isInner isOuter (ih outside)

/-- What is bound in a scope or around it is hidden at most by something else of the name. -/
theorem Reaches.isSome_lookupWithin (reaches : model.Reaches name symbol scope)
    (ordered : model.Ordered) {bound : Nat}
    (enough : scope < bound) : (model.lookupWithin bound scope name).isSome := by
  induction reaches generalizing bound with
  | here isInner isBound =>
    obtain ⟨bound, rfl⟩ :=
      Nat.exists_eq_add_one_of_ne_zero (Nat.ne_of_gt (Nat.zero_lt_of_lt enough))
    rw [lookupWithin_succ isInner, Option.isSome_or]
    have isSome : (List.lookup name _).isSome := Option.isSome_iff_ne_none.2 fun missing => by
      simpa using List.lookup_eq_none_iff.1 missing _ isBound
    rw [isSome, Bool.true_or]
  | outward isInner isOuter _ ih =>
    obtain ⟨bound, rfl⟩ :=
      Nat.exists_eq_add_one_of_ne_zero (Nat.ne_of_gt (Nat.zero_lt_of_lt enough))
    have before := ordered isInner isOuter
    rw [lookupWithin_succ isInner, Option.isSome_or, isOuter, Option.bind_some,
      ih (Nat.lt_of_lt_of_le before (Nat.le_of_lt_succ enough)), Bool.or_true]

/-- A symbol is declared at one of some nodes. -/
def Owned (model : Model) (owners : List Ref) (symbol : SymbolId) : Prop :=
  ∃ name, ∃ declaration ∈ owners, model.signature? symbol = some (name, declaration)

/-- Of what the names in a term refer to, all that is not declared in the term is bound in the scope
of the term or around it, and a name that is the whole term refers to nothing else. -/
def Seen (model : Model) (term : Outline) : Prop :=
    ∀ part ∈ term.subterms, ∀ name symbol, part.kind = .ident name →
  model.symbolOf part.ref = some symbol → term.kind.isIdent = false ∧ model.Owned term.refs symbol ∨
    ∃ scope, (model.factsOf term.ref).scope = some scope ∧ model.Reaches name symbol scope

/-- A part of the walk keeps symbols and scopes and adds bindings, of symbols that are declared at
the owners; what the nodes refer to and their scopes change at some nodes only. -/
structure Grows (owners refs : List Ref) (before after : Model) : Prop where
  /-- There are facts for as many nodes. -/
  sized : after.facts.size = before.facts.size
  /-- Symbols stay what they are. -/
  signature : ∀ {symbol data}, before.signature? symbol = some data →
    after.signature? symbol = some data
  /-- A scope stays inside the same scope and keeps its bindings, and new bindings are of symbols
  declared at the owners. -/
  scopes : ∀ {id : ScopeId} {inner : Scope}, before.scopes[id]? = some inner →
    ∃ grown, after.scopes[id]? = some grown ∧
    grown.parent = inner.parent ∧ inner.bindings ⊆ grown.bindings ∧ ∀ {name symbol},
      (name, symbol) ∈ grown.bindings → (name, symbol) ∈ inner.bindings ∨ after.Owned owners symbol
  /-- Other nodes refer to the same and have the same scopes. -/
  elsewhere : ∀ {ref}, ref ∉ refs → after.symbolOf ref = before.symbolOf ref ∧
    (after.factsOf ref).scope = (before.factsOf ref).scope

theorem Owned.mono (owned : model.Owned owners symbol)
    (among : owners ⊆ others) : model.Owned others symbol := by
  obtain ⟨name, declaration, member, signature⟩ := owned
  exact ⟨name, declaration, among member, signature⟩

namespace Grows

theorem owned (grows : Grows owners refs before after) (owned : before.Owned others symbol) :
    after.Owned others symbol := by
  obtain ⟨name, declaration, member, signature⟩ := owned
  exact ⟨name, declaration, member, grows.signature signature⟩

theorem reaches (grows : Grows owners refs before after)
    (reaches : before.Reaches name symbol scope) :
    after.Reaches name symbol scope := by
  induction reaches with
  | here isInner isBound =>
    obtain ⟨grown, isGrown, -, kept, -⟩ := grows.scopes isInner
    exact .here isGrown (kept isBound)
  | outward isInner isOuter _ ih =>
    obtain ⟨grown, isGrown, same, -⟩ := grows.scopes isInner
    exact .outward isGrown (same.trans isOuter) ih

theorem trans (first : Grows owners refs before middle) (second : Grows owners more middle after) :
    Grows owners (refs ++ more) before after where
  sized := second.sized.trans first.sized
  signature isSymbol := second.signature (first.signature isSymbol)
  scopes isInner := by
    obtain ⟨between, isBetween, same, kept, owned⟩ := first.scopes isInner
    obtain ⟨grown, isGrown, sameAgain, keptAgain, ownedAgain⟩ := second.scopes isBetween
    refine ⟨grown, isGrown, sameAgain.trans same, List.Subset.trans kept keptAgain,
      fun isBound => ?_⟩
    rcases ownedAgain isBound with isBound | isOwned
    · exact (owned isBound).imp_right second.owned
    · exact .inr isOwned
  elsewhere absent := by
    obtain ⟨absentFirst, absentSecond⟩ := not_or.1 (mt List.mem_append.2 absent)
    exact ⟨(second.elsewhere absentSecond).1.trans (first.elsewhere absentFirst).1,
      (second.elsewhere absentSecond).2.trans (first.elsewhere absentFirst).2⟩

theorem mono (grows : Grows owners refs before after) (among : owners ⊆ others)
    (wider : refs ⊆ more) :
    Grows others more before after where
  sized := grows.sized
  signature := grows.signature
  scopes isInner := by
    obtain ⟨grown, isGrown, same, kept, owned⟩ := grows.scopes isInner
    exact ⟨grown, isGrown, same, kept, fun isBound => (owned isBound).imp_right (·.mono among)⟩
  elsewhere absent := grows.elsewhere fun member => absent (wider member)

/-- Opening a scope changes none of the others. -/
theorem openScope (owners : List Ref) (scope : ScopeId) (model : Model) :
    Grows owners [] model (Model.openScope scope model).2 where
  sized := rfl
  signature := id
  scopes {id inner} isInner := by
    refine ⟨inner, ?_, rfl, List.Subset.refl _, .inl⟩
    change (model.scopes.push _)[id]? = _
    rw [Array.getElem?_push, if_neg (Nat.ne_of_lt (Array.getElem?_eq_some_iff.1 isInner).1)]
    exact isInner
  elsewhere _ := ⟨rfl, rfl⟩

/-- What changes neither the scopes nor what is declared or referred to. -/
theorem of_alike (alike : Alike before after)
    (same : ∀ ref ∉ refs, (after.factsOf ref).scope = (before.factsOf ref).scope) :
    Grows owners refs before after where
  sized := alike.sized
  signature isSymbol := (alike.signature _).trans isSymbol
  scopes isInner := ⟨_, alike.scopes ▸ isInner, rfl, List.Subset.refl _, .inl⟩
  elsewhere absent := ⟨alike.refers _, same _ absent⟩

/-- What changes what one node refers to. -/
theorem noteReference (ref : Ref) (symbol : SymbolId) (type : DataType)
    (model : Model) : Grows owners [ref] model
    (note ref (fun facts => { facts with reference := some symbol, type }) model).2 where
  sized := facts_note ..
  signature isSymbol := by
    rw [signature?, symbols_note]
    exact isSymbol
  scopes isInner := ⟨_, (scopes_note ..).symm ▸ isInner, rfl, List.Subset.refl _, .inl⟩
  elsewhere {other} absent := by
    rcases factsOf_note ref other (fun facts => { facts with reference := some symbol, type }) model
      with same | ⟨rfl, -⟩
    · exact ⟨congrArg Facts.reference same, congrArg Facts.scope same⟩
    · exact absurd (List.mem_singleton_self _) absent

end Grows

/-- What is seen in a term stays seen while other nodes change. -/
theorem Seen.grow {term : Outline} (seen : before.Seen term)
    (grows : Grows owners refs before after)
    (apart : ∀ ref ∈ term.refs, ref ∉ refs) : after.Seen term := by
  intro part inside name symbol isName refers
  rw [(grows.elsewhere (apart part.ref (mem_refs.2 ⟨part, inside, rfl⟩))).1] at refers
  refine (seen part inside name symbol isName refers).imp (.imp_right grows.owned) fun found => ?_
  obtain ⟨scope, isScope, reaches⟩ := found
  exact ⟨scope, (grows.elsewhere (apart term.ref (ref_mem_refs term))).2.trans isScope,
    grows.reaches reaches⟩

/-- What a step leaves that explores some terms, seen from the scope that it starts in. -/
structure Explored (owners : List Ref) (scope : ScopeId) (terms : List Outline)
    (before after : Model) : Prop where
  /-- Scopes are opened after the scopes around them. -/
  ordered : after.Ordered
  /-- Nothing but the terms changes, and nothing is taken away. -/
  grows : Grows owners (terms.flatMap Term.refs) before after
  /-- All parts of the terms are seen. -/
  seen : ∀ term ∈ terms, ∀ part ∈ term.subterms, after.Seen part
  /-- What the names in the terms refer to is declared at the owners, or it is bound in the scope or
  around it. -/
  found : ∀ term ∈ terms, ∀ part ∈ term.subterms, ∀ name symbol, part.kind = .ident name →
    after.symbolOf part.ref = some symbol → after.Owned owners symbol ∨
    after.Reaches name symbol scope

/-- A step explores some terms of which nothing is known before. -/
def Explores (owners : List Ref) (scope : ScopeId) (terms : List Outline)
    (step : Resolving α) : Prop :=
  ∀ model, model.Ordered → scope < model.scopes.size → (terms.flatMap Term.refs).Nodup →
    (∀ ref ∈ terms.flatMap Term.refs, model.symbolOf ref = none ∧
    ∃ number < model.facts.size, ref = some number) →
    Explored owners scope terms model (step model).2

theorem Grows.size_le (grows : Grows owners refs before after) :
    before.scopes.size ≤ after.scopes.size := by
  by_contra fewer
  have inside : after.scopes.size < before.scopes.size := Nat.lt_of_not_le fewer
  obtain ⟨grown, isGrown, -⟩ := grows.scopes (Array.getElem?_eq_getElem inside)
  exact Nat.lt_irrefl _ (Array.getElem?_eq_some_iff.1 isGrown).1

namespace Explores

variable {step : Resolving α} {next : α → Resolving β} {terms rest : List Outline} {term : Outline}

/-- Exploring some terms and then others. -/
theorem bind (first : Explores owners scope terms step)
    (second : ∀ value, Explores owners scope rest (next value)) :
    Explores owners scope (terms ++ rest) (step >>= next) := by
  intro model ordered opened once fresh
  rw [List.flatMap_append] at once fresh
  obtain ⟨onceFirst, onceSecond, apart⟩ := List.nodup_append'.1 once
  have before :=
    first model ordered opened onceFirst fun ref member => fresh ref (List.mem_append_left _ member)
  have after := second (step model).1 (step model).2 before.ordered
    (Nat.lt_of_lt_of_le opened before.grows.size_le) onceSecond
    fun ref member => by
      obtain ⟨isNew, stored⟩ := fresh ref (List.mem_append_right _ member)
      rw [(before.grows.elsewhere fun early => apart early member).1, before.grows.sized]
      exact ⟨isNew, stored⟩
  have later {term part : Outline} (isTerm : term ∈ terms) (inside : part ∈ term.subterms) :
      ∀ ref ∈ part.refs, ref ∉ rest.flatMap Term.refs :=
    fun ref member => apart <| List.mem_flatMap.2 ⟨term, isTerm, refs_subset inside member⟩
  refine ⟨after.ordered, ?_, fun term isTerm part inside =>
    ?_, fun term isTerm part inside name symbol isName refers => ?_⟩
  · rw [List.flatMap_append]
    exact before.grows.trans after.grows
  · rcases List.mem_append.1 isTerm with isTerm | isTerm
    · exact (before.seen term isTerm part inside).grow after.grows (later isTerm inside)
    · exact after.seen term isTerm part inside
  · rcases List.mem_append.1 isTerm with isTerm | isTerm
    · have refers :=
        (after.grows.elsewhere (later isTerm inside _ (ref_mem_refs part))).1.symm.trans refers
      exact (before.found term isTerm part inside name symbol isName refers).imp after.grows.owned
        after.grows.reaches
    · exact after.found term isTerm part inside name symbol isName refers

theorem mono (explores : Explores owners scope terms step)
    (among : owners ⊆ others) : Explores others scope terms step := by
  intro model ordered opened once fresh
  obtain ⟨ordered, grows, seen, found⟩ := explores model ordered opened once fresh
  exact ⟨ordered, grows.mono among (List.Subset.refl _), seen,
    fun term isTerm part inside name symbol isName refers =>
    (found term isTerm part inside name symbol isName refers).imp_left (·.mono among)⟩

/-- A step that refers to nothing explores terms of which it records the scopes at most. -/
theorem unseen (alike : Quiet step) (same : ∀ model, ∀ ref ∉ terms.flatMap Term.refs,
    ((step model).2.factsOf ref).scope = (model.factsOf ref).scope) :
    Explores owners scope terms step := by
  intro model ordered _ _ fresh
  have alike := alike model
  have nothing {term part : Outline} (isTerm : term ∈ terms) (inside : part ∈ term.subterms)
      {symbol : SymbolId} :
      (step model).2.symbolOf part.ref ≠ some symbol := by
    rw [alike.refers,
      (fresh part.ref (List.mem_flatMap.2 ⟨term, isTerm, mem_refs.2 ⟨part, inside, rfl⟩⟩)).1]
    exact (Option.some_ne_none symbol).symm
  refine ⟨?_, .of_alike alike (same model),
    fun term isTerm part inside below within name symbol _ refers =>
    ?_, fun term isTerm part inside name symbol _ refers => absurd refers (nothing isTerm inside)⟩
  · intro id outer inner isInner isOuter
    exact ordered (alike.scopes ▸ isInner) isOuter
  · exact absurd refers (nothing isTerm (subterms_trans inside within))

/-- Reading the model or computing a value. -/
theorem silent (same : ∀ model, (step model).2 = model)
    (terms : List Outline) : Explores owners scope terms step :=
  .unseen (fun model => (same model).symm ▸ .refl model) fun model ref _ => by rw [same model]

/-- What is not looked at is explored as well. -/
theorem unvisited (rest : List Outline) (explores : Explores owners scope terms step) :
    Explores owners scope (rest ++ terms) step := by
  have nothing : Explores owners scope rest (pure PUnit.unit : Resolving PUnit) :=
    .silent (fun _ => rfl) rest
  exact nothing.bind fun _ => explores

/-- What a step explores in a new scope it explores in the scope around it. -/
theorem opened {next : ScopeId → Resolving β}
    (each : ∀ inner, Explores owners inner terms (next inner)) :
    Explores owners scope terms (openScope scope >>= next) := by
  intro model ordered isOpen once fresh
  have scopes : (openScope scope model).2.scopes = model.scopes.push ⟨some scope, []⟩ := rfl
  have isNew : (openScope scope model).2.scopes[model.scopes.size]? = some ⟨some scope, []⟩ := by
    rw [scopes, Array.getElem?_push_size]
  have orderedNew : (openScope scope model).2.Ordered := by
    intro id outer inner isInner isOuter
    rw [scopes, Array.getElem?_push] at isInner
    split at isInner
    · rename_i last
      obtain rfl := Option.some.inj isInner
      cases isOuter
      exact last ▸ isOpen
    · exact ordered isInner isOuter
  obtain ⟨orderedAfter, grows, seen, found⟩ :=
    each model.scopes.size (openScope scope model).2 orderedNew
      (Array.getElem?_eq_some_iff.1 isNew).1 once fresh
  refine ⟨orderedAfter, (Grows.openScope owners scope model).trans grows, seen,
    fun term isTerm part inside name symbol isName refers => ?_⟩
  obtain ⟨grown, isGrown, isParent, -, owned⟩ := grows.scopes isNew
  rcases found term isTerm part inside name symbol isName refers with isOwned | reaches
  · exact .inl isOwned
  · -- The new scope has no bindings but new ones, and beyond it lies the scope around it.
    cases reaches with
    | here isInner isBound =>
      cases isGrown.symm.trans isInner
      exact .inl ((owned isBound).resolve_left List.not_mem_nil)
    | outward isInner isOuter reaches =>
      cases isGrown.symm.trans isInner
      cases isParent.symm.trans isOuter
      exact .inr reaches

theorem forM {places : Outline → List Outline} {step : Outline → Resolving PUnit}
    (each : ∀ term ∈ terms, Explores owners scope (places term) (step term)) :
    Explores owners scope (terms.flatMap places) (terms.forM step) := by
  induction terms with
  | nil => exact .silent (fun _ => rfl) []
  | cons term terms ih =>
    exact (each term (.head _)).bind fun _ => ih fun other member => each other (.tail _ member)

end Explores

section

variable {place : Place} {form : Form Place} {terms : List Outline} {given : DataType}

/-- Recording the scope of a node explores a term there of which nothing more is looked at. -/
theorem explores_enter (term : Outline) : Explores owners scope [term] (enter scope term.ref) := by
  refine .unseen (quiet_enter scope term.ref) fun model ref absent => ?_
  rcases factsOf_note term.ref ref (fun facts => { facts with scope := some scope }) model
    with same | ⟨rfl, -⟩
  · rw [enter, same]
  · exact absurd (by simpa using ref_mem_refs term) absent

theorem explores_setSymbolType
    (type : DataType) : Explores owners scope [] (setSymbolType symbol type) :=
  .unseen (quiet_setSymbolType symbol type) fun _ _ _ => rfl

theorem explores_infer : Explores owners scope [] (infer ref form) := by
  refine .unseen (quiet_infer ref form) fun model other _ => ?_
  simp only [infer, bind, StateT.bind, get, getThe, MonadStateOf.get, StateT.get, pure]
  split
  · rfl
  · rcases factsOf_note ref other (fun facts => { facts with type := model.inferType form }) model
      with same | ⟨-, same⟩
    · rw [setType, same]
    · rw [setType, same]

theorem Explores.inferred {step : Resolving PUnit} (explores : Explores owners scope terms step)
    (ref : Ref) (form : Form Place) :
    Explores owners scope terms (step >>= fun _ => infer ref form) := by
  have both := explores.bind fun _ => @explores_infer scope owners ref form
  rwa [List.append_nil] at both

/-- Declaring a symbol at one of the owners. -/
theorem explores_declare (kind : SymbolKind) (type : DataType) (isOwner : ref ∈ owners) :
    Explores owners scope [] (declare scope name kind type ref) := by
  intro model ordered _ _ _
  have facts (other : Ref) :
      (declare scope name kind type ref model).2.symbolOf other = model.symbolOf other ∧
      ((declare scope name kind type ref model).2.factsOf other).scope =
      (model.factsOf other).scope := by
    let bound : Model :=
      { model with
        symbols := model.symbols.push ⟨name, kind, type, ref⟩
        scopes := model.scopes.modify scope fun inner =>
          { inner with bindings := (name, model.symbols.size) :: inner.bindings } }
    have noted :=
      factsOf_note ref other (fun facts => { facts with declared := some model.symbols.size }) bound
    change (Facts.reference ((note ref _ bound).2.factsOf other))
      = (bound.factsOf other).reference ∧
      ((note ref _ bound).2.factsOf other).scope = (bound.factsOf other).scope
    rcases noted with same | ⟨-, same⟩ <;> rw [same] <;> exact ⟨rfl, rfl⟩
  refine ⟨fun isInner isOuter => ?_, ⟨facts_note .., signature?_declare_of_some kind type,
    fun {id inner} isInner => ?_, fun {other} _ => facts other⟩, fun _ isTerm =>
    absurd isTerm List.not_mem_nil, fun _ isTerm => absurd isTerm List.not_mem_nil⟩
  · obtain ⟨before, isBefore, same, -⟩ := exists_scope_of_declare kind type isInner
    exact ordered isBefore (same ▸ isOuter)
  · rw [scopes_declare, Array.getElem?_modify]
    split
    · refine ⟨_, congrArg (Option.map _) isInner, rfl, List.subset_cons_self _ _, fun isBound => ?_⟩
      rcases List.mem_cons.1 isBound with new | isBound
      · cases new
        exact .inr ⟨_, ref, isOwner, (signature?_declare ..).trans (if_pos rfl)⟩
      · exact .inl isBound
    · exact ⟨inner, isInner, rfl, List.Subset.refl _, .inl⟩

/-- Giving a local its type, which is declared at one of the owners where it was not declared
before. -/
theorem explores_settleLocal (type : DataType) (isOwner : ref ∈ owners) :
    Explores owners scope [] (settleLocal scope name type ref) := by
  intro model
  cases found : model.declaredSymbol ref with
  | some symbol =>
    rw [settleLocal_of_some found]
    exact explores_setSymbolType type model
  | none =>
    rw [settleLocal_of_none found]
    intro ordered opened once fresh
    have declared :
        Explored owners scope [] model (declare scope name .local .unknown ref model).2 :=
      explores_declare .local .unknown isOwner model ordered opened once fresh
    have isSet : Explores owners scope [] (setSymbolType model.symbols.size type) :=
      explores_setSymbolType type
    have settled :=
      isSet _ declared.ordered (Nat.lt_of_lt_of_le opened declared.grows.size_le) List.nodup_nil
      fun _ member => absurd member List.not_mem_nil
    exact ⟨settled.ordered, declared.grows.trans settled.grows, settled.seen, settled.found⟩

/-- A step below a node explores the node, where the scope of the node is recorded first. -/
theorem explores_node {step : Resolving PUnit}
    (below : Explores (Term.node place form).refs scope (parts form) step)
    (noName : form.isIdent = false) :
    Explores (Term.node place form).refs scope [.node place form]
    (enter scope place.ref >>= fun _ => step) := by
  intro model ordered opened once fresh
  simp only [List.flatMap_cons, List.flatMap_nil, List.append_nil] at once fresh
  have alike := quiet_enter scope place.ref model
  have scopes : (enter scope place.ref model).2.scopes = model.scopes := alike.scopes
  rw [refs_node] at once
  obtain ⟨apart, onceBelow⟩ := List.nodup_cons.1 once
  have isBelow {ref : Ref}
      (member : ref ∈ (parts form).flatMap Term.refs) : ref ∈ (Term.node place form).refs := by
    rw [refs_node]
    exact List.mem_cons_of_mem _ member
  obtain ⟨orderedAfter, grows, seen, found⟩ := below (enter scope place.ref model).2
    (fun isInner isOuter => ordered (scopes ▸ isInner) isOuter)
    (scopes ▸ opened) onceBelow fun ref member => by
      rw [alike.refers, alike.sized]
      exact fresh ref (isBelow member)
  have entered :
      Grows (Term.node place form).refs [place.ref] model (enter scope place.ref model).2 := by
    refine .of_alike alike fun ref absent => ?_
    rcases factsOf_note place.ref ref (fun facts => { facts with scope := some scope }) model
      with same | ⟨rfl, -⟩
    · rw [enter, same]
    · exact absurd (List.mem_singleton_self _) absent
  have isScope : ((step (enter scope place.ref model).2).2.factsOf place.ref).scope
      = some scope := by
    obtain ⟨-, stored⟩ := fresh place.ref (ref_mem_refs _)
    rw [(grows.elsewhere apart).2, enter, factsOf_note_stored _ _ _ stored, if_pos rfl]
  have found' : ∀ part ∈ (Term.node place form).subterms, ∀ name symbol, part.kind = .ident name →
      (step (enter scope place.ref model).2).2.symbolOf part.ref = some symbol →
      (step (enter scope place.ref model).2).2.Owned (Term.node place form).refs symbol ∨
        (step (enter scope place.ref model).2).2.Reaches name symbol scope := by
    intro part inside name symbol isName refers
    rw [subterms_node] at inside
    rcases List.mem_cons.1 inside with rfl | inside
    · have isName : form = .ident name := isName
      rw [isName] at noName
      cases noName
    · obtain ⟨child, isChild, inside⟩ := List.mem_flatMap.1 inside
      exact found child isChild part inside name symbol isName refers
  refine ⟨orderedAfter, ?_, List.forall_mem_singleton.2 fun part inside =>
    ?_, List.forall_mem_singleton.2 found'⟩
  · rw [List.flatMap_singleton]
    exact (entered.trans grows).mono (List.Subset.refl _) (by simp [refs_node])
  · rw [subterms_node] at inside
    rcases List.mem_cons.1 inside with rfl | inside
    · intro part inside name symbol isName refers
      exact (found' part inside name symbol isName refers).imp (⟨noName, ·⟩) fun reaches =>
        ⟨scope, isScope, reaches⟩
    · obtain ⟨child, isChild, inside⟩ := List.mem_flatMap.1 inside
      exact seen child isChild part inside

/-- Resolving a name that stands in a scope. -/
theorem explores_ident :
    Explores (Term.node place (.ident name)).refs scope [.node place (.ident name)]
      (resolve scope given (.node place (.ident name))) := by
  have named : Explores (Term.node place (.ident name)).refs scope [.node place (.ident name)]
      (enter scope place.ref >>= fun _ => resolveName scope name place.ref) := by
    intro model ordered opened once fresh
    have entered :
        Explored (Term.node place (.ident name)).refs scope [.node place (.ident name)] model
          (enter scope place.ref model).2 :=
      explores_enter (.node place (.ident name)) model ordered opened once fresh
    change Explored _ _ _ _ (resolveName scope name place.ref (enter scope place.ref model).2).2
    cases lookup : (enter scope place.ref model).2.lookupIn scope name with
    | none =>
      rw [resolveName_of_none lookup]
      exact entered
    | some symbol =>
      rw [resolveName_of_some lookup]
      have reaches := reaches_of_lookupWithin lookup
      have facts := factsOf_note_stored place.ref (enter scope place.ref model).2 (fun facts =>
        { facts with reference := some symbol, type :=
        (enter scope place.ref model).2.symbolType symbol })
        (entered.grows.sized.symm ▸ (fresh place.ref (by simp)).2) place.ref
      have noted := @Grows.noteReference (Term.node place (.ident name)).refs place.ref symbol
        ((enter scope place.ref model).2.symbolType symbol) (enter scope place.ref model).2
      rw [if_pos rfl] at facts
      have isScope : ((enter scope place.ref model).2.factsOf place.ref).scope = some scope := by
        rw [enter, factsOf_note_stored _ _ _ (fresh place.ref (by simp)).2, if_pos rfl]
      have only {part : Outline} (inside : part ∈ (Term.node place (.ident name)).subterms) :
          part = .node place (.ident name) := by
        rw [subterms_node] at inside
        simpa [parts] using inside
      refine ⟨fun isInner isOuter => entered.ordered ((scopes_note ..) ▸ isInner) isOuter, ?_,
        List.forall_mem_singleton.2 fun part inside => ?_,
        List.forall_mem_singleton.2 fun part inside other number isName refers => .inr ?_⟩
      · exact (entered.grows.trans noted).mono (List.Subset.refl _) (by simp [parts])
      · obtain rfl := only inside
        intro part inside other number isName refers
        obtain rfl := only inside
        cases isName
        cases (congrArg Facts.reference facts).symm.trans refers
        exact .inr ⟨scope, (congrArg Facts.scope facts).trans isScope, noted.reaches reaches⟩
      · obtain rfl := only inside
        cases isName
        cases (congrArg Facts.reference facts).symm.trans refers
        exact noted.reaches reaches
  rw [resolve, resolveForm]
  exact named.inferred place.ref (.ident name)

/-- Resolving an optional child explores it. -/
theorem explores_resolveSome {term : Option Outline}
    (each : ∀ inner ∈ term, Explores owners scope [inner] (resolve scope given inner)) :
    Explores owners scope term.toList (resolveSome scope given term) := by
  cases term with
  | none =>
    rw [resolveSome]
    exact .silent (fun _ => rfl) []
  | some term =>
    rw [resolveSome]
    exact each term rfl

theorem explores_resolveAll
    (each : ∀ inner ∈ terms, Explores owners scope [inner] (resolve scope given inner)) :
    Explores owners scope terms (resolveAll scope given terms) := by
  induction terms with
  | nil =>
    rw [resolveAll]
    exact .silent (fun _ => rfl) []
  | cons term terms ih =>
    rw [resolveAll]
    exact (each term (.head _)).bind fun _ => ih fun other member => each other (.tail _ member)

/-- Resolving declarators explores them. -/
theorem explores_resolveDeclarators {written : Option DataType}
    (among : ∀ declarator ∈ terms, declarator.refs ⊆ owners)
    (each : ∀ declarator ∈ terms, ∀ value ∈ declarator.children,
      Explores value.refs scope [value] (resolve scope .unknown value)) :
    Explores owners scope terms (resolveDeclarators scope written terms) := by
  induction terms with
  | nil =>
    rw [resolveDeclarators]
    exact .silent (fun _ => rfl) []
  | cons term terms ih =>
    have later := ih (fun other member => among other (.tail _ member)) fun other member =>
      each other (.tail _ member)
    rcases term with ⟨place, form⟩
    by_cases isDeclarator : form.isDeclarator
    · cases form <;> cases isDeclarator
      rename_i name value
      have value' : Explores (Term.node place (.declarator name value)).refs scope value.toList
          (resolveSome scope .unknown value) := by
        refine explores_resolveSome fun inner isInner =>
          (each _ (.head _) inner ?_).mono fun ref member => ?_
        · simp [children, kind, parts, Option.mem_def.1 isInner]
        · rw [refs_node]
          simpa [parts, Option.mem_def.1 isInner] using .inr member
      have declarator : Explores (Term.node place (.declarator name value)).refs scope
          [.node place (.declarator name value)]
          (enter scope place.ref >>= fun _ => resolveSome scope .unknown value >>= fun _ =>
            get >>= fun model =>
            settleLocal scope name (written.getD (model.childType value)) place.ref) := by
        refine explores_node ?_ rfl
        have same : parts (.declarator name value) = value.toList ++ ([] ++ []) := by simp [parts]
        rw [same]
        exact value'.bind fun _ => (Explores.silent (fun _ => rfl) []).bind fun _ =>
          explores_settleLocal _ (ref_mem_refs _)
      rw [resolveDeclarators]
      exact (declarator.mono (among _ (.head _))).bind fun _ => later
    · rw [resolveDeclarators]
      · exact (explores_enter (.node place form)).bind fun _ => later
      · exact fun name value same => isDeclarator (same ▸ rfl)

/-- Declaring the locals of statements. -/
theorem explores_predeclare {statements : List Outline}
    (among : ∀ statement ∈ statements, statement.refs ⊆ owners) :
    Explores owners scope [] (predeclare scope statements) := by
  have nothing (terms : List Outline) : terms.flatMap (fun _ => ([] : List Outline)) = [] := by simp
  rw [predeclare, ← nothing statements]
  refine .forM fun statement isStatement => ?_
  split
  · rename_i place type declarators
    rw [← nothing declarators]
    refine .forM fun declarator member => ?_
    split
    · rename_i place name value
      refine explores_declare .local .unknown (among _ isStatement ?_)
      rw [refs_node]
      refine List.mem_cons_of_mem _ (List.mem_flatMap.2
        ⟨.node place (.declarator name value), ?_, ref_mem_refs _⟩)
      simp [parts, member]
    · exact .silent (fun _ => rfl) []
  · exact .silent (fun _ => rfl) []

/-- Declaring parameters. -/
theorem explores_declareParams {params : List Outline} (kind : SymbolKind)
    (typeOf : Option Outline → DataType) (among : ∀ param ∈ params, param.ref ∈ owners) :
    Explores owners scope params (declareParams scope kind typeOf params) := by
  have same : params = params.flatMap fun param => [param] := by simp
  rw [declareParams]
  nth_rewrite 1 [same]
  refine .forM fun param isParam => ?_
  refine (explores_enter param).bind fun _ => ?_
  split
  · exact explores_declare kind _ (among _ isParam)
  · exact .silent (fun _ => rfl) []

/-- Resolving what is below a node explores it, where resolving each child explores the child. -/
theorem explores_resolveForm (isOwner : ref ∈ owners)
    (owned : ∀ child ∈ parts form, child.refs ⊆ owners)
    (each : ∀ child ∈ parts form, ∀ part ∈ child.subterms, ∀ scope given,
      Explores part.refs scope [part] (resolve scope given part)) (noName : form.isIdent = false) :
    Explores owners scope (parts form) (resolveForm scope given ref form) := by
  have below {child : Outline} (isPart : child ∈ parts form) (scope : ScopeId) (given : DataType) :
      Explores owners scope [child] (resolve scope given child) :=
    (each child isPart child (self_mem_subterms child) scope given).mono (owned child isPart)
  have optional {child : Option Outline} {scope : ScopeId} {given : DataType}
      (areParts : child.toList ⊆ parts form := by simp [parts]) :
    Explores owners scope child.toList (resolveSome scope given child) :=
    explores_resolveSome fun inner isInner => below (areParts (by simpa using isInner)) scope given
  have list {children : List Outline} {scope : ScopeId} {given : DataType}
      (areParts : children ⊆ parts form := by simp [parts]) :
    Explores owners scope children (resolveAll scope given children) :=
    explores_resolveAll fun inner isInner => below (areParts isInner) scope given
  cases form
  case ident => cases noName
  case unit members =>
    have same : parts (.unit members) = [] ++ members := by simp [parts]
    rw [resolveForm, same]
    exact (explores_predeclare fun member isMember =>
      owned member (by simpa [parts] using isMember)).bind fun _ => list
  case block statements =>
    have same : parts (.block statements) = [] ++ statements := by simp [parts]
    rw [resolveForm, same]
    exact .opened fun inner => (explores_predeclare fun member isMember =>
      owned member (by simpa [parts] using isMember)).bind fun _ => list
  case method result name params body =>
    have same : parts (.method result name params body)
        = result.toList ++ (params ++ body.toList) := by simp [parts]
    rw [resolveForm, same]
    refine .unvisited _ (.opened fun inner =>
      (explores_declareParams _ _ fun param isParam => ?_).bind fun _ => optional)
    exact owned param (by simp [parts, isParam]) (ref_mem_refs param)
  case lambda params body parenthesized =>
    have same : parts (.lambda params body parenthesized) = params ++ body.toList := by simp [parts]
    rw [resolveForm, same]
    refine .opened fun inner => (explores_declareParams _ _ fun param isParam => ?_).bind fun _ =>
      optional
    exact owned param (by simp [parts, isParam]) (ref_mem_refs param)
  case localDecl type declarators =>
    have same : parts (.localDecl type declarators) = type.toList ++ declarators := by simp [parts]
    rw [resolveForm, same]
    refine .unvisited _ (explores_resolveDeclarators (fun declarator member => owned declarator ?_)
      fun declarator member value isValue => ?_)
    · simp [parts, member]
    · exact each declarator (by simp [parts, member]) value
        (child_mem_subterms isValue) scope .unknown
  case forLoop declaration initializers condition incrementors body =>
    have same : parts (.forLoop declaration initializers condition incrementors body) =
        declaration.toList ++
        (initializers ++ (condition.toList ++ (incrementors ++ body.toList))) := by simp [parts]
    rw [resolveForm]
    refine same.symm ▸ .opened fun inner => (optional ?_).bind fun _ => (list ?_).bind
      fun _ => (optional ?_).bind fun _ => (list ?_).bind fun _ => optional ?_
    all_goals exact fun child member => by simp_all
  case forEach type name collection body =>
    have same : parts (.forEach type name collection body) =
        type.toList ++ (collection.toList ++ ([] ++ ([] ++ body.toList))) := by simp [parts]
    rw [resolveForm, same]
    refine .unvisited _ (.bind optional fun _ => (Explores.silent (fun _ => rfl) []).bind
      fun _ => .opened fun inner => .bind ?_ fun _ => optional)
    exact explores_declare .iterationVariable _ isOwner
  case invoke callee arguments =>
    have same : parts (.invoke callee arguments) = callee.toList ++ ([] ++ arguments) := by
      simp [parts]
    rw [resolveForm, same]
    exact .bind optional fun _ => (Explores.silent (fun _ => rfl) []).bind fun _ =>
      list
  case typeRef | int | str | bool | null =>
    rw [resolveForm]
    exact .silent (fun _ => rfl) _
  case argument _ child =>
    have same : parts (.argument ‹_› child) = child.toList := by simp [parts]
    rw [resolveForm, same]
    exact optional
  case param child _ | declarator _ child | exprStmt child | returnStmt child | member child
    _ _ | unary _ child |
      paren child =>
    rw [resolveForm]
    simpa [parts] using @optional child scope .unknown (by simp [parts])
  case whileLoop first second | binary _ first second | assign _ first second =>
    rw [resolveForm]
    simpa [parts] using (@optional first scope .unknown (by simp [parts])).bind fun _ =>
      @optional second scope .unknown (by simp [parts])
  case ifStmt condition thenBranch elseBranch =>
    have same : parts (.ifStmt condition thenBranch elseBranch) =
      condition.toList ++ (thenBranch.toList ++ elseBranch.toList) := by simp [parts]
    rw [resolveForm, same]
    exact .bind optional fun _ => .bind optional fun _ =>
      optional
  case index receiver arguments =>
    have same : parts (.index receiver arguments) = receiver.toList ++ arguments := by simp [parts]
    rw [resolveForm, same]
    exact .bind optional fun _ => list

/-- Resolving a term or any part of it explores it. -/
theorem explores_resolve (term : Outline) : ∀ part ∈ term.subterms, ∀ scope given,
    Explores part.refs scope [part] (resolve scope given part) := by
  induction term using Term.induction with
  | step place form ih =>
    intro part inside scope given
    rw [subterms_node] at inside
    rcases List.mem_cons.1 inside with rfl | inside
    · by_cases isName : form.isIdent
      · cases form <;> cases isName
        exact explores_ident
      have owned (child : Outline)
          (isPart : child ∈ parts form) : child.refs ⊆ (Term.node place form).refs := by
        intro ref member
        rw [refs_node]
        exact List.mem_cons_of_mem _ (List.mem_flatMap.2 ⟨child, isPart, member⟩)
      have below : Explores (Term.node place form).refs scope (parts form)
          (resolveForm scope given place.ref form) :=
        explores_resolveForm (ref_mem_refs (.node place form)) owned ih (by simpa using isName)
      rw [resolve]
      exact explores_node (below.inferred place.ref form) (by simpa using isName)
    · obtain ⟨child, isPart, inside⟩ := List.mem_flatMap.1 inside
      exact ih child isPart part inside scope given

end

end Model

open Term Model

variable {tree : Tree} {whole part : Outline}

/-- Building the model of a program explores it. -/
theorem Tree.IsProgram.explored_build (program : tree.IsProgram whole) :
    Explored whole.refs rootScope [whole] (Model.blank tree.size) (build tree) := by
  have ordered : (Model.blank tree.size).Ordered := by
    intro id outer inner isInner isOuter
    cases id with
    | zero =>
      cases isInner
      cases isOuter
    | succ id => cases isInner
  rw [program.build_eq]
  refine explores_resolve whole whole
    (self_mem_subterms whole) rootScope .unknown _ ordered Nat.zero_lt_one ?_ fun ref member => ?_
  · rw [List.flatMap_singleton]
    exact program.stands.once
  · rw [List.flatMap_singleton] at member
    rw [symbolOf, factsOf_blank, Model.blank, Array.size_replicate]
    exact ⟨rfl, program.stands.hasRef member⟩

/-- What a name below a node refers to is declared below the node, or a lookup of the name at the
node finds something. -/
theorem Tree.IsProgram.owned_or_lookupAt (program : tree.IsProgram whole)
    (within : part ∈ whole.subterms) {inner : Outline}
    (inside : inner ∈ part.subterms) {name : String} (isName : inner.kind = .ident name)
    {symbol : SymbolId}
    (refers : (build tree).symbolOf inner.ref = some symbol) :
    part.kind.isIdent = false ∧ (build tree).Owned part.refs symbol ∨
    ((build tree).lookupAt part.ref name).isSome := by
  have explored := program.explored_build
  refine (explored.seen whole
    (.head _) part within inner inside name symbol isName refers).imp_right fun found => ?_
  obtain ⟨scope, isScope, reaches⟩ := found
  have isOpen : scope < (build tree).scopes.size := by
    cases reaches with
    | here isInner | outward isInner => exact (Array.getElem?_eq_some_iff.1 isInner).1
  rw [lookupAt, isScope]
  exact reaches.isSome_lookupWithin explored.ordered isOpen

/-- A lookup at a node misses nothing that is declared outside: where it finds nothing, all uses of
the name below the node belong to declarations below the node. A lookup at a name that refers to a
symbol finds something. -/
theorem Tree.WellFormed.declared_inside_of_lookupAt (wellFormed : tree.WellFormed) {position : Ref}
    (attached : position ∈ tree.attached) (name : String) :
    ((build tree).lookupAt position name = none →
      ∀ ref ∈ tree.descendants position, tree.kind ref = .ident name →
      ∀ symbol, (build tree).symbolOf ref = some symbol → ∃ data, (build tree).symbols[symbol]?
          = some data ∧ data.declaration ∈ tree.descendants position) ∧
    (tree.kind position = .ident name → ((build tree).symbolOf position).isSome →
      ((build tree).lookupAt position name).isSome) := by
  obtain ⟨whole, program⟩ := wellFormed_iff.1 wellFormed
  rw [program.attached] at attached
  obtain ⟨part, within, rfl⟩ := mem_refs.1 attached
  have isName {inner : Outline} (inside : inner ∈ part.subterms)
      (same : tree.kind inner.ref = .ident name) :
      inner.kind = .ident name := (same ▸
    (all_iff_subterms.1 program.stands.shown inner (subterms_trans within inside)).depicts).ident
  refine ⟨fun missing ref below same symbol refers => ?_, fun same refers => ?_⟩
  · rw [(program.stands.subterm within).descendants] at below ⊢
    obtain ⟨inner, inside, rfl⟩ := mem_refs.1 below
    rcases program.owned_or_lookupAt within inside (isName inside same) refers
      with ⟨-, owned⟩ | found
    · obtain ⟨spelled, declaration, member, signature⟩ := owned
      obtain ⟨data, isData, same⟩ := Option.map_eq_some_iff.1 signature
      cases same
      exact ⟨data, isData, member⟩
    · rw [missing] at found
      cases found
  · obtain ⟨symbol, refers⟩ := Option.isSome_iff_exists.1 refers
    have same := isName (self_mem_subterms part) same
    refine (program.owned_or_lookupAt within (self_mem_subterms part) same refers).resolve_left
      fun owned => ?_
    rw [same] at owned
    cases owned.1

/-- The parameter of a lambda is not found from outside, where nothing is missed, and a local around
it is found. -/
theorem Tree.lookup_around_lambda : ∃ tree : Tree,
    Tree.parse 0 "var x = 1; F(y => G(x, y));" = .ok tree ∧
    (build tree).lookupAt (some 12) "y" = none ∧
    (∃ data, (build tree).symbols[1]? = some data ∧ data.declaration ∈ tree.descendants (some 12)) ∧
      ((build tree).lookupAt (some 7) "x").isSome := by
  have names : (Tree.parse 0 "var x = 1; F(y => G(x, y));").toOption.any (fun tree =>
      decide (some 12 ∈ tree.attached) && decide ((build tree).lookupAt (some 12) "y" = none) &&
        decide (some 9 ∈ tree.descendants (some 12)) && decide (tree.kind (some 9) = .ident "y") &&
        decide ((build tree).symbolOf (some 9) = some 1) && decide (some 7 ∈ tree.attached) &&
        decide (tree.kind (some 7) = .ident "x") && ((build tree).symbolOf (some 7)).isSome)
          = true := by
    decide +kernel
  obtain ⟨tree, parsed, names⟩ := exists_of_any names
  simp only [Bool.and_eq_true, decide_eq_true_eq] at names
  obtain ⟨⟨⟨⟨⟨⟨⟨outside, missing⟩, below⟩, isName⟩, refers⟩, attached⟩, isLocal⟩, isSome⟩ := names
  obtain ⟨-, outline, -, program, -⟩ := exists_isProgram_of_parse parsed
  have wellFormed : tree.WellFormed := wellFormed_iff.2 ⟨outline, program⟩
  exact ⟨tree, parsed, missing, (wellFormed.declared_inside_of_lookupAt outside "y").1 missing
    _ below isName 1 refers, (wellFormed.declared_inside_of_lookupAt attached "x").2 isLocal isSome⟩

end Refactory
