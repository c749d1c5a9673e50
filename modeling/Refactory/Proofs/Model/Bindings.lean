import Refactory.Proofs.Model.References
import Refactory.Proofs.Model.Scopes

/-!
# Symbols and bindings

A model is consistent with a tree, given the node that opens each of its scopes, when its scopes lie
in one another as those of the tree do, each name is bound in the scope that its node declares it
in, and nodes and symbols belong to each other (`Model.Consistent`). Where, besides, every scope has
the names that it is to have from its start (`Model.Ready`), a lookup gives what lexical scoping
says (`Model.Consistent.resolves_of_lookupWithin`, `Model.Consistent.lacks_of_lookupWithin`).

What the steps of a walk do to such a model is said for opening a scope
(`Model.Consistent.openScope`), for declaring a name (`Model.declares_declare`) and for the steps
that change neither symbols nor bindings (`Model.Quiet`).
-/
namespace Refactory

namespace Tree

variable {tree : Tree} {scopes : List Ref} {scope declaration : Ref} {name : String}

/-- A name means the declaration of a node where some scopes lie around it, the innermost first: the
node declares in one of them, and none of those inside it has the name from its start. -/
def Resolves (tree : Tree) (scopes : List Ref) (name : String) (declaration : Ref) : Prop :=
  ∃ deeper scope outer, scopes = deeper ++ scope :: outer ∧ tree.scopeOf? declaration = some scope ∧
    ∀ inner ∈ deeper, ¬tree.DeclaresUpFront inner name

/-- None of some scopes has a name from its start. -/
def Lacks (tree : Tree) (scopes : List Ref) (name : String) : Prop :=
    ∀ scope ∈ scopes, ¬tree.DeclaresUpFront scope name

theorem Resolves.here (declares : tree.scopeOf? declaration = some scope) :
    tree.Resolves (scope :: scopes) name declaration :=
    ⟨[], scope, scopes, rfl, declares, List.forall_mem_nil _⟩

theorem Resolves.outward (absent : ¬tree.DeclaresUpFront scope name)
    (resolves : tree.Resolves scopes name declaration) :
    tree.Resolves (scope :: scopes) name declaration := by
  obtain ⟨deeper, found, outer, rfl, declares, none⟩ := resolves
  exact ⟨scope :: deeper, found, outer, rfl, declares, List.forall_mem_cons.2 ⟨absent, none⟩⟩

theorem Lacks.outward (absent : ¬tree.DeclaresUpFront scope name) (lacks : tree.Lacks scopes name) :
    tree.Lacks (scope :: scopes) name := List.forall_mem_cons.2 ⟨absent, lacks⟩

end Tree

namespace Model

/-- The name of a symbol and the node that declares it. -/
def signature? (model : Model) (symbol : SymbolId) : Option (String × Ref) :=
  model.symbols[symbol]?.map fun data => (data.name, data.declaration)

/-- A name is bound in a scope. -/
def Binds (model : Model) (scope : ScopeId) (name : String) : Prop :=
  ∃ inner, model.scopes[scope]? = some inner ∧ (inner.bindings.lookup name).isSome

/-- A model says of the symbols and scopes found so far what a tree says. The scopes are those that
the nodes open. -/
structure Consistent (tree : Tree) (nodes : List Ref) (model : Model) : Prop where
  /-- There are facts for each node. -/
  sized : model.facts.size = tree.size
  /-- Every scope is opened by a node. -/
  opened : model.scopes.size = nodes.length
  /-- A scope inside no other is opened by a node inside none. -/
  outermost : ∀ {id : ScopeId} {node : Ref} {scope : Scope}, nodes[id]? = some node →
    model.scopes[id]? = some scope →
    scope.parent = none → tree.scopesAround node = []
  /-- A scope inside another, which was opened before, is opened by a node directly inside the
  other. -/
  outward : ∀ {id outer : ScopeId} {node : Ref} {scope : Scope}, nodes[id]? = some node →
    model.scopes[id]? = some scope → scope.parent = some outer → outer < id ∧ ∃ around,
      nodes[outer]? = some around ∧ tree.scopesAround node = around :: tree.scopesAround around
  /-- A name is bound to a symbol of this name which is declared in this scope. -/
  bound : ∀ {id : ScopeId} {node : Ref} {scope : Scope} {name : String} {symbol : SymbolId},
    nodes[id]? = some node →
    model.scopes[id]? = some scope → (name, symbol) ∈ scope.bindings → ∃ declaration,
      model.signature? symbol = some (name, declaration) ∧ tree.scopeOf? declaration = some node
  /-- A node declares a symbol when the symbol is declared by the node. -/
  declared : ∀ {ref symbol}, model.declaredSymbol ref = some symbol ↔
    ∃ name, model.signature? symbol = some (name, ref)
  /-- A symbol has the name that its node declares. -/
  named : ∀ {symbol name ref}, model.signature? symbol = some (name, ref) →
    ref ∈ tree.attached ∧ (tree.kind ref).declaredName? = some name
  /-- A name refers to what it means. -/
  refers : ∀ {ref name symbol}, tree.kind ref = .ident name → model.symbolOf ref = some symbol →
    ∃ declaration, model.signature? symbol = some (name, declaration) ∧
      tree.Resolves (tree.scopesAround ref) name declaration

/-- The scopes that some nodes open have the names that they are to have from their start. -/
def Ready (tree : Tree) (nodes : List Ref) (model : Model) : Prop :=
  ∀ {id node name}, nodes[id]? = some node → tree.DeclaresUpFront node name → model.Binds id name

section

variable {tree : Tree} {nodes : List Ref} {model : Model} {bound : Nat} {scope : ScopeId}
  {node : Ref} {name : String} {symbol : SymbolId}

/-- What a lookup in a scope is, given the scope. -/
theorem lookupWithin_succ {inner : Scope} (found : model.scopes[scope]? = some inner) :
    model.lookupWithin (bound + 1) scope name = (inner.bindings.lookup name).or
      (inner.parent.bind fun outer => model.lookupWithin bound outer name) := by
  rw [lookupWithin, found]
  cases bindings : inner.bindings.lookup name <;> simp [bindings]

/-- A scope that has no binding for a name does not have the name from its start. -/
theorem Ready.not_declaresUpFront {inner : Scope} (ready : Ready tree nodes model)
    (isNode : nodes[scope]? = some node)
    (found : model.scopes[scope]? = some inner) (unbound : inner.bindings.lookup name = none) :
    ¬tree.DeclaresUpFront node name := by
  intro declares
  obtain ⟨other, isInner, isBound⟩ := ready isNode declares
  rw [found] at isInner
  rw [← Option.some.inj isInner, unbound] at isBound
  cases isBound

theorem Consistent.scope_of_node (consistent : Consistent tree nodes model)
    (isNode : nodes[scope]? = some node) :
    ∃ inner, model.scopes[scope]? = some inner := by
  have inside := (List.getElem?_eq_some_iff.1 isNode).1
  exact ⟨_, Array.getElem?_eq_getElem (consistent.opened ▸ inside)⟩

/-- What a lookup finds is what the name means in the scopes from the given one on. -/
theorem Consistent.resolves_of_lookupWithin (consistent : Consistent tree nodes model)
    (ready : Ready tree nodes model) (isNode : nodes[scope]? = some node)
    (found : model.lookupWithin bound scope name = some symbol) :
    ∃ declaration, model.signature? symbol = some (name, declaration) ∧
      tree.Resolves (node :: tree.scopesAround node) name declaration := by
  induction bound generalizing scope node with
  | zero => cases found
  | succ bound ih =>
    obtain ⟨inner, isInner⟩ := consistent.scope_of_node isNode
    rw [lookupWithin_succ isInner] at found
    cases bindings : inner.bindings.lookup name with
    | some here =>
      rw [bindings] at found
      obtain rfl := Option.some.inj found
      obtain ⟨_, _, among, -⟩ := List.lookup_eq_some_iff.1 bindings
      have isBound : (name, here) ∈ inner.bindings := among ▸ List.mem_append_right _ (.head _)
      obtain ⟨declaration, isSymbol, declares⟩ := consistent.bound isNode isInner isBound
      exact ⟨declaration, isSymbol, .here declares⟩
    | none =>
      rw [bindings, Option.none_or] at found
      obtain ⟨outer, isOuter, found⟩ := Option.bind_eq_some_iff.1 found
      obtain ⟨-, around, isAround, inside⟩ := consistent.outward isNode isInner isOuter
      obtain ⟨declaration, isSymbol, resolves⟩ := ih isAround found
      rw [inside]
      exact ⟨declaration, isSymbol,
        resolves.outward (ready.not_declaresUpFront isNode isInner bindings)⟩

/-- Where a lookup that may go through all scopes finds nothing, no scope from the given one on has
the name from its start. -/
theorem Consistent.lacks_of_lookupWithin (consistent : Consistent tree nodes model)
    (ready : Ready tree nodes model) (isNode : nodes[scope]? = some node) (enough : scope < bound)
    (missing : model.lookupWithin bound scope name = none) :
    tree.Lacks (node :: tree.scopesAround node) name := by
  induction bound generalizing scope node with
  | zero => exact absurd enough (Nat.not_lt_zero _)
  | succ bound ih =>
    obtain ⟨inner, isInner⟩ := consistent.scope_of_node isNode
    rw [lookupWithin_succ isInner] at missing
    obtain ⟨unbound, missing⟩ := Option.or_eq_none_iff.1 missing
    refine .outward (ready.not_declaresUpFront isNode isInner unbound) ?_
    cases parent : inner.parent with
    | none =>
      rw [consistent.outermost isNode isInner parent]
      exact List.forall_mem_nil _
    | some outer =>
      obtain ⟨before, around, isAround, inside⟩ := consistent.outward isNode isInner parent
      rw [parent] at missing
      rw [inside]
      exact ih isAround (Nat.lt_of_lt_of_le before (Nat.le_of_lt_succ enough)) missing

end

/-- What stays of a model over some steps: what is bound and declared, and that names refer to
something. Only some nodes are declared that were not. -/
structure Keeps (refs : List Ref) (before after : Model) : Prop where
  /-- Symbols stay what they are. -/
  signature : ∀ {symbol data}, before.signature? symbol = some data →
    after.signature? symbol = some data
  /-- Bound names stay bound. -/
  binds : ∀ {scope name}, before.Binds scope name → after.Binds scope name
  /-- Nodes that are declared stay declared. -/
  declared : ∀ {ref}, (before.declaredSymbol ref).isSome → (after.declaredSymbol ref).isSome
  /-- Other nodes are not declared. -/
  elsewhere : ∀ {ref}, ref ∉ refs → before.declaredSymbol ref = none →
    after.declaredSymbol ref = none
  /-- What refers to a symbol goes on to refer to one. -/
  refers : ∀ {ref}, (before.symbolOf ref).isSome → (after.symbolOf ref).isSome

namespace Keeps

variable {refs others : List Ref} {before middle after : Model}

theorem refl (model : Model) : Keeps refs model model := ⟨id, id, id, fun _ => id, id⟩

theorem mono (keeps : Keeps refs before after) (more : refs ⊆ others) : Keeps others before after :=
  { keeps with elsewhere := fun absent => keeps.elsewhere fun member => absent (more member) }

theorem trans (first : Keeps refs before middle) (second : Keeps others middle after) :
    Keeps (refs ++ others) before after where
  signature isSymbol := second.signature (first.signature isSymbol)
  binds isBound := second.binds (first.binds isBound)
  declared isDeclared := second.declared (first.declared isDeclared)
  elsewhere absent isNew :=
    second.elsewhere (fun member => absent (List.mem_append_right _ member))
      (first.elsewhere (fun member => absent (List.mem_append_left _ member)) isNew)
  refers isReference := second.refers (first.refers isReference)

theorem ready {tree : Tree} {nodes : List Ref} (keeps : Keeps refs before after)
    (ready : Ready tree nodes before) :
    Ready tree nodes after := fun isNode declares => keeps.binds (ready isNode declares)

end Keeps

/-- Two models know the same symbols, bindings, declarations and references. -/
structure Alike (before after : Model) : Prop where
  /-- The same symbols. -/
  signature : ∀ symbol, after.signature? symbol = before.signature? symbol
  /-- The same scopes. -/
  scopes : after.scopes = before.scopes
  /-- The same declarations. -/
  declared : ∀ ref, after.declaredSymbol ref = before.declaredSymbol ref
  /-- The same references. -/
  refers : ∀ ref, after.symbolOf ref = before.symbolOf ref
  /-- As many facts. -/
  sized : after.facts.size = before.facts.size

namespace Alike

variable {before middle after : Model}

theorem refl (model : Model) : Alike model model :=
    ⟨fun _ => rfl, rfl, fun _ => rfl, fun _ => rfl, rfl⟩

theorem trans (first : Alike before middle) (second : Alike middle after) : Alike before after where
  signature symbol := (second.signature symbol).trans (first.signature symbol)
  scopes := second.scopes.trans first.scopes
  declared ref := (second.declared ref).trans (first.declared ref)
  refers ref := (second.refers ref).trans (first.refers ref)
  sized := second.sized.trans first.sized

theorem keeps (alike : Alike before after) (refs : List Ref) : Keeps refs before after where
  signature isSymbol := (alike.signature _).trans isSymbol
  binds isBound := by
    obtain ⟨inner, isInner, isBound⟩ := isBound
    exact ⟨inner, alike.scopes ▸ isInner, isBound⟩
  declared isDeclared := (alike.declared _).symm ▸ isDeclared
  elsewhere _ isNew := (alike.declared _).trans isNew
  refers isReference := (alike.refers _).symm ▸ isReference

theorem ready {tree : Tree} {nodes : List Ref} (alike : Alike before after)
    (ready : Ready tree nodes before) :
    Ready tree nodes after := (alike.keeps []).ready ready

theorem consistent {tree : Tree} {nodes : List Ref} (alike : Alike before after)
    (consistent : Consistent tree nodes before) : Consistent tree nodes after where
  sized := alike.sized.trans consistent.sized
  opened := alike.scopes ▸ consistent.opened
  outermost := alike.scopes ▸ consistent.outermost
  outward := alike.scopes ▸ consistent.outward
  bound isNode isScope isBound := by
    rw [alike.scopes] at isScope
    simpa only [alike.signature] using consistent.bound isNode isScope isBound
  declared := by
    intro ref symbol
    simpa only [alike.signature, alike.declared] using consistent.declared
  named isSymbol := consistent.named ((alike.signature _).symm.trans isSymbol)
  refers isName isReference := by
    rw [alike.refers] at isReference
    simpa only [alike.signature] using consistent.refers isName isReference

end Alike

/-- A step that changes neither symbols, bindings, declarations nor references. -/
def Quiet {α : Type} (step : Resolving α) : Prop := ∀ model, Alike model (step model).2

namespace Quiet

variable {α β : Type}

theorem pure (value : α) : Quiet (Pure.pure value : Resolving α) := fun model => .refl model

theorem get : Quiet (MonadState.get : Resolving Model) := fun model => .refl model

theorem bind {step : Resolving α} {next : α → Resolving β} (first : Quiet step)
    (others : ∀ value, Quiet (next value)) :
    Quiet (step >>= next) := fun model => (first model).trans (others (step model).1 (step model).2)

end Quiet

theorem facts_note (ref : Ref) (change : Facts → Facts) (model : Model) :
    (note ref change model).2.facts.size = model.facts.size := by
  cases ref with
  | none => rfl
  | some number => exact Array.size_modify

theorem symbols_note (ref : Ref) (change : Facts → Facts) (model : Model) :
    (note ref change model).2.symbols = model.symbols := by
  cases ref <;> rfl

theorem scopes_note (ref : Ref) (change : Facts → Facts) (model : Model) :
    (note ref change model).2.scopes = model.scopes := by
  cases ref <;> rfl

/-- Noting what is neither a declaration nor a reference is quiet. -/
theorem quiet_note (ref : Ref) {change : Facts → Facts}
    (unchanged : ∀ facts, (change facts).declared = facts.declared ∧
      (change facts).reference = facts.reference) :
    Quiet (note ref change) := by
  intro model
  have same (other : Ref) :
      ((note ref change model).2.factsOf other).declared = (model.factsOf other).declared ∧
      ((note ref change model).2.factsOf other).reference = (model.factsOf other).reference := by
    rcases factsOf_note ref other change model with same | ⟨-, changed⟩
    · rw [same]
      exact ⟨rfl, rfl⟩
    · rw [changed]
      exact unchanged _
  refine ⟨fun symbol => ?_, scopes_note .., fun other => (same other).1, fun other =>
    (same other).2, facts_note ..⟩
  rw [signature?, signature?, symbols_note]

theorem quiet_enter (scope : ScopeId) (ref : Ref) : Quiet (enter scope ref) :=
    quiet_note ref fun _ => ⟨rfl, rfl⟩

theorem quiet_infer (ref : Ref) (form : Term.Form Place) : Quiet (infer ref form) := by
  refine Quiet.get.bind fun model => ?_
  dsimp only
  split
  · exact .pure _
  · exact quiet_note ref fun _ => ⟨rfl, rfl⟩

theorem quiet_setSymbolType (symbol : SymbolId)
    (type : DataType) : Quiet (setSymbolType symbol type) := by
  intro model
  refine ⟨fun other => ?_, rfl, fun _ => rfl, fun _ => rfl, rfl⟩
  change (model.symbols.modify symbol _)[other]?.map _ = _
  rw [signature?, Array.getElem?_modify]
  split
  · rw [Option.map_map]
    rfl
  · rfl

section

variable {tree : Tree} {nodes : List Ref} {model : Model} {scope : ScopeId} {node ref : Ref}
  {name : String}

/-- Opening a scope at a node directly inside that of another. -/
theorem Consistent.openScope (consistent : Consistent tree nodes model)
    (isNode : nodes[scope]? = some node)
    (inside : tree.scopesAround ref = node :: tree.scopesAround node) :
    Consistent tree (nodes ++ [ref]) (Model.openScope scope model).2 := by
  have before := (List.getElem?_eq_some_iff.1 isNode).1
  have cases_of {id : Nat} {other : Ref} {found : Scope}
      (isOther : (nodes ++ [ref])[id]? = some other)
      (isFound : (model.scopes.push ⟨some scope, []⟩)[id]? = some found) :
      nodes[id]? = some other ∧ model.scopes[id]? = some found ∨
        id = nodes.length ∧ other = ref ∧ found = ⟨some scope, []⟩ := by
    rw [Array.getElem?_push, consistent.opened] at isFound
    rw [List.getElem?_append] at isOther
    split at isOther
    · rename_i earlier
      rw [if_neg (Nat.ne_of_lt earlier)] at isFound
      exact .inl ⟨isOther, isFound⟩
    · have last : id = nodes.length := by
        have := (List.getElem?_eq_some_iff.1 isOther).1
        simp only [List.length_singleton] at this
        omega
      rw [if_pos last] at isFound
      subst last
      simp only [Nat.sub_self, List.getElem?_cons_zero, Option.some.injEq] at isOther
      exact .inr ⟨rfl, isOther.symm, (Option.some.inj isFound).symm⟩
  refine ⟨consistent.sized, ?_, fun isOther isFound parent => ?_, fun isOther isFound parent => ?_,
    fun isOther isFound isBound => ?_, consistent.declared, consistent.named, consistent.refers⟩
  · change (model.scopes.push _).size = _
    rw [Array.size_push, consistent.opened, List.length_append, List.length_singleton]
  · rcases cases_of isOther isFound with ⟨isOther, isFound⟩ | ⟨-, -, rfl⟩
    · exact consistent.outermost isOther isFound parent
    · cases parent
  · rcases cases_of isOther isFound with ⟨isOther, isFound⟩ | ⟨rfl, rfl, rfl⟩
    · obtain ⟨earlier, around, isAround, inside⟩ := consistent.outward isOther isFound parent
      exact ⟨earlier, around,
        List.getElem?_append_left (List.getElem?_eq_some_iff.1 isAround).1 ▸ isAround, inside⟩
    · obtain rfl := Option.some.inj parent
      exact ⟨before, node, List.getElem?_append_left before ▸ isNode, inside⟩
  · rcases cases_of isOther isFound with ⟨isOther, isFound⟩ | ⟨-, -, rfl⟩
    · exact consistent.bound isOther isFound isBound
    · cases isBound

theorem keeps_openScope (parent : ScopeId) (model : Model) (refs : List Ref) :
    Keeps refs model (openScope parent model).2 where
  signature := id
  binds isBound := by
    obtain ⟨inner, isInner, isBound⟩ := isBound
    refine ⟨inner, ?_, isBound⟩
    change (model.scopes.push _)[_]? = _
    rw [Array.getElem?_push, if_neg (Nat.ne_of_lt (Array.getElem?_eq_some_iff.1 isInner).1)]
    exact isInner
  declared := id
  elsewhere _ := id
  refers := id

/-- A node declares a name in a scope. -/
structure Declarable (tree : Tree) (nodes : List Ref) (scope : ScopeId) (ref : Ref)
    (name : String) : Prop where
  /-- The node is reached from the root. -/
  attached : ref ∈ tree.attached
  /-- It is stored. -/
  stored : tree.HasRef ref
  /-- It declares the name. -/
  named : (tree.kind ref).declaredName? = some name
  /-- It declares the name in the scope. -/
  inside : ∃ node, nodes[scope]? = some node ∧ tree.scopeOf? ref = some node

section

variable (scope : ScopeId) (name : String) (kind : SymbolKind) (type : DataType) (ref : Ref)
  (model : Model)

/-- The symbols after a declaration are those before it and the new one. -/
theorem signature?_declare
    (symbol : SymbolId) : (declare scope name kind type ref model).2.signature? symbol =
    if symbol = model.symbols.size then some (name, ref) else model.signature? symbol := by
  have symbols : (declare scope name kind type ref model).2.symbols
      = model.symbols.push ⟨name, kind, type, ref⟩ :=
    symbols_note ..
  rw [signature?, symbols, Array.getElem?_push]
  split <;> rfl

/-- The scope of a declaration has one more binding after it. -/
theorem scopes_declare :
    (declare scope name kind type ref model).2.scopes = model.scopes.modify scope fun inner =>
    { inner with bindings := (name, model.symbols.size) :: inner.bindings } := scopes_note ..

/-- What is known of the nodes after something is noted at a stored one. -/
theorem factsOf_note_stored (change : Facts → Facts)
    (stored : ∃ number < model.facts.size, ref = some number)
    (other : Ref) : (note ref change model).2.factsOf other =
      if other = ref then change (model.factsOf other) else model.factsOf other := by
  obtain ⟨number, inside, rfl⟩ := stored
  cases other with
  | none => rfl
  | some place =>
    change (model.facts.modify number change)[place]?.getD .nothing = _
    rw [Array.getElem?_modify, factsOf]
    by_cases same : number = place
    · subst same
      rw [if_pos rfl, if_pos rfl, Array.getElem?_eq_getElem inside]
      rfl
    · rw [if_neg same, if_neg fun other => same (Option.some.inj other).symm]

/-- What is known of the nodes after a declaration. -/
theorem factsOf_declare (stored : ∃ number < model.facts.size, ref = some number) (other : Ref) :
    (declare scope name kind type ref model).2.factsOf other =
      if other = ref then { model.factsOf other with declared := some model.symbols.size }
      else model.factsOf other := by
  let bound : Model :=
    { model with
      symbols := model.symbols.push ⟨name, kind, type, ref⟩
      scopes := model.scopes.modify scope fun inner =>
        { inner with bindings := (name, model.symbols.size) :: inner.bindings } }
  exact factsOf_note_stored ref bound
    (fun facts => { facts with declared := some model.symbols.size }) stored other

end

end

section

variable {tree : Tree} {nodes : List Ref} {model : Model} {scope : ScopeId} {ref : Ref}
  {name : String}

/-- A symbol has a number below that of all symbols. -/
theorem lt_of_signature? {symbol : SymbolId} {data : String × Ref}
    (isSymbol : model.signature? symbol = some data) :
    symbol < model.symbols.size := by
  obtain ⟨_, found, -⟩ := Option.map_eq_some_iff.1 isSymbol
  exact (Array.getElem?_eq_some_iff.1 found).1

section

variable (kind : SymbolKind) (type : DataType)

/-- Symbols stay what they are when another is declared. -/
theorem signature?_declare_of_some {symbol : SymbolId} {data : String × Ref}
    (isSymbol : model.signature? symbol = some data) :
    (Model.declare scope name kind type ref model).2.signature? symbol = some data := by
  rw [signature?_declare, if_neg (Nat.ne_of_lt (lt_of_signature? isSymbol))]
  exact isSymbol

/-- A scope after a declaration is one before it, perhaps with the new binding. -/
theorem exists_scope_of_declare {id : ScopeId} {found : Scope}
    (isFound : (Model.declare scope name kind type ref model).2.scopes[id]? = some found) :
    ∃ before, model.scopes[id]? = some before ∧ found.parent = before.parent ∧
      (found.bindings = before.bindings ∨
        id = scope ∧ found.bindings = (name, model.symbols.size) :: before.bindings) := by
  rw [scopes_declare, Array.getElem?_modify] at isFound
  split at isFound
  · rename_i same
    obtain ⟨before, isBefore, rfl⟩ := Option.map_eq_some_iff.1 isFound
    exact ⟨before, isBefore, rfl, .inr ⟨same.symm, rfl⟩⟩
  · exact ⟨found, isFound, rfl, .inl rfl⟩

/-- A declared name is bound in its scope. -/
theorem binds_declare (isScope : ∃ inner, model.scopes[scope]? = some inner) :
    (Model.declare scope name kind type ref model).2.Binds scope name := by
  obtain ⟨inner, isInner⟩ := isScope
  rw [Binds, scopes_declare, Array.getElem?_modify, if_pos rfl]
  refine ⟨_, congrArg (Option.map _) isInner, ?_⟩
  rw [List.lookup_cons_self]
  rfl

section

variable (stored : ∃ number < model.facts.size, ref = some number) (other : Ref)

include stored

/-- A declaration adds one declaring node. -/
theorem declaredSymbol_declare :
    (Model.declare scope name kind type ref model).2.declaredSymbol other =
    if other = ref then some model.symbols.size else model.declaredSymbol other := by
  rw [declaredSymbol, factsOf_declare _ _ _ _ _ _ stored, declaredSymbol]
  split <;> rfl

/-- A declaration refers to nothing. -/
theorem symbolOf_declare :
    (Model.declare scope name kind type ref model).2.symbolOf other = model.symbolOf other := by
  rw [symbolOf, factsOf_declare _ _ _ _ _ _ stored, symbolOf]
  split <;> rfl

end

/-- Declaring a name changes what is declared at its node only. -/
theorem keeps_declare (stored : ∃ number < model.facts.size, ref = some number) :
    Keeps [ref] model (Model.declare scope name kind type ref model).2 where
  signature := signature?_declare_of_some kind type
  binds isBound := by
    obtain ⟨inner, isInner, isBound⟩ := isBound
    rw [Binds, scopes_declare, Array.getElem?_modify]
    split
    · refine ⟨_, congrArg (Option.map _) isInner, ?_⟩
      rw [List.lookup_cons]
      split
      · rfl
      · exact isBound
    · exact ⟨inner, isInner, isBound⟩
  declared isDeclared := by
    rw [declaredSymbol_declare kind type stored]
    split
    · rfl
    · exact isDeclared
  elsewhere absent isNew := by
    rw [declaredSymbol_declare kind type stored, if_neg (by simpa using absent)]
    exact isNew
  refers isReference := by
    rw [symbolOf_declare kind type stored]
    exact isReference

/-- Declaring a name at a node that does not declare one so far. -/
theorem Consistent.declare (consistent : Consistent tree nodes model)
    (declarable : Declarable tree nodes scope ref name)
    (isNew : model.declaredSymbol ref = none) :
    Consistent tree nodes (Model.declare scope name kind type ref model).2 := by
  have stored : ∃ number < model.facts.size, ref = some number :=
    consistent.sized ▸ declarable.stored
  obtain ⟨node, isNode, declares⟩ := declarable.inside
  have isSymbol : (Model.declare scope name kind type ref model).2.signature? model.symbols.size
      = some (name, ref) := by
    rw [signature?_declare, if_pos rfl]
  refine ⟨(facts_note ..).trans consistent.sized, ?_, fun isOther isFound parent =>
    ?_, fun isOther isFound parent => ?_, fun isOther isFound isBound => ?_, fun {other symbol} =>
    ?_, fun {symbol other place} isSymbol => ?_, fun isName isReference => ?_⟩
  · rw [scopes_declare, Array.size_modify, consistent.opened]
  · obtain ⟨before, isBefore, same, -⟩ := exists_scope_of_declare kind type isFound
    exact consistent.outermost isOther isBefore (same ▸ parent)
  · obtain ⟨before, isBefore, same, -⟩ := exists_scope_of_declare kind type isFound
    exact consistent.outward isOther isBefore (same ▸ parent)
  · have kept {id : ScopeId} {before : Scope} {other : Ref} {bound : String} {symbol : SymbolId}
        (isOther : nodes[id]? = some other) (isBefore : model.scopes[id]? = some before)
        (isBound : (bound, symbol) ∈ before.bindings) : ∃ declaration,
          (Model.declare scope name kind type ref model).2.signature? symbol
          = some (bound, declaration) ∧ tree.scopeOf? declaration = some other := by
      obtain ⟨declaration, isSymbol, inside⟩ := consistent.bound isOther isBefore isBound
      exact ⟨declaration, signature?_declare_of_some kind type isSymbol, inside⟩
    obtain ⟨before, isBefore, -, same | ⟨rfl, same⟩⟩ := exists_scope_of_declare kind type isFound
    · exact kept isOther isBefore (same ▸ isBound)
    · rcases List.mem_cons.1 (same ▸ isBound) with new | isBound
      · cases new
        obtain rfl : node = _ := Option.some.inj (isNode.symm.trans isOther)
        exact ⟨ref, isSymbol, declares⟩
      · exact kept isOther isBefore isBound
  · -- The new symbol is that of the node, and the node had none.
    rw [declaredSymbol_declare kind type stored, signature?_declare]
    by_cases here : other = ref
    · subst here
      rw [if_pos rfl]
      constructor
      · intro same
        exact ⟨name, if_pos (Option.some.inj same).symm⟩
      · rintro ⟨other, isSymbol⟩
        split at isSymbol
        · rename_i last
          rw [last]
        · rw [consistent.declared.2 ⟨other, isSymbol⟩] at isNew
          cases isNew
    · rw [if_neg here, consistent.declared]
      refine exists_congr fun other => ?_
      split
      · rename_i last
        subst last
        refine iff_of_false (fun isSymbol => ?_) fun same => here ?_
        · exact Nat.lt_irrefl _ (lt_of_signature? isSymbol)
        · cases same
          rfl
      · rfl
  · rw [signature?_declare] at isSymbol
    split at isSymbol
    · cases isSymbol
      exact ⟨declarable.attached, declarable.named⟩
    · exact consistent.named isSymbol
  · rw [symbolOf_declare kind type stored] at isReference
    obtain ⟨declaration, isSymbol, resolves⟩ := consistent.refers isName isReference
    exact ⟨declaration, signature?_declare_of_some kind type isSymbol, resolves⟩

end

/-- What is known of a declaration that has a symbol. -/
theorem Consistent.exists_declaredName (consistent : Consistent tree nodes model)
    (isDeclared : (model.declaredSymbol ref).isSome) :
    ∃ name, (tree.kind ref).declaredName? = some name := by
  obtain ⟨symbol, isSymbol⟩ := Option.isSome_iff_exists.1 isDeclared
  obtain ⟨name, signature⟩ := consistent.declared.1 isSymbol
  exact ⟨name, (consistent.named signature).2⟩

/-- A name that a lookup finds a symbol for refers to the symbol. -/
theorem Consistent.noteReference (consistent : Consistent tree nodes model)
    (stored : tree.HasRef ref)
    (isName : tree.kind ref = .ident name) {symbol : SymbolId} {declaration : Ref}
    (isSymbol : model.signature? symbol = some (name, declaration))
    (resolves : tree.Resolves (tree.scopesAround ref) name declaration) (type : DataType) :
    let after := (note ref (fun facts => { facts with reference := some symbol, type }) model).2
    Consistent tree nodes after ∧ Keeps [] model after ∧ (after.symbolOf ref).isSome := by
  intro after
  have facts :=
    factsOf_note_stored ref model (fun facts => { facts with reference := some symbol, type })
      (consistent.sized ▸ stored)
  have signature (other : SymbolId) : after.signature? other = model.signature? other := by
    rw [signature?, signature?, symbols_note]
  have declared (other : Ref) : after.declaredSymbol other = model.declaredSymbol other := by
    rw [declaredSymbol, facts, declaredSymbol]
    split <;> rfl
  have refers (other : Ref) : after.symbolOf other = if other = ref then some symbol
      else model.symbolOf other := by
    rw [symbolOf, facts, symbolOf]
    split <;> rfl
  have scopes : after.scopes = model.scopes := scopes_note ..
  have sized : after.facts.size = model.facts.size := facts_note ..
  clear_value after
  refine ⟨⟨sized.trans consistent.sized, scopes ▸ consistent.opened, scopes ▸ consistent.outermost,
    scopes ▸ consistent.outward, ?_, ?_, ?_, ?_⟩, ⟨?_, ?_, ?_, ?_, ?_⟩, ?_⟩
  · intro _ _ _ _ _ isNode isScope isBound
    rw [scopes] at isScope
    simpa only [signature] using consistent.bound isNode isScope isBound
  · intro other symbol
    simpa only [signature, declared] using consistent.declared
  · intro symbol name other isSymbol
    exact consistent.named ((signature symbol).symm.trans isSymbol)
  · intro other name' symbol' isOther isReference
    simp only [signature]
    rw [refers] at isReference
    split at isReference
    · rename_i same
      subst same
      obtain rfl := Option.some.inj isReference
      cases isName.symm.trans isOther
      exact ⟨declaration, isSymbol, resolves⟩
    · exact consistent.refers isOther isReference
  · exact fun isSymbol => (signature _).trans isSymbol
  · rintro scope name ⟨inner, isInner, isBound⟩
    exact ⟨inner, scopes ▸ isInner, isBound⟩
  · exact fun isDeclared => (declared _).symm ▸ isDeclared
  · exact fun _ isNew => (declared _).trans isNew
  · intro other isReference
    rw [refers]
    split
    · rfl
    · exact isReference
  · rw [refers, if_pos rfl]
    rfl

/-- A step that declares some nodes in a scope, which do not declare anything so far. -/
def Declares {α : Type} (tree : Tree) (nodes : List Ref) (scope : ScopeId) (refs : List Ref)
    (step : Resolving α) : Prop :=
  ∀ model, Consistent tree nodes model → (∀ ref ∈ refs, model.declaredSymbol ref = none) →
    refs.Nodup →
    Consistent tree nodes (step model).2 ∧ Keeps refs model (step model).2 ∧
      ∀ ref ∈ refs, ((step model).2.declaredSymbol ref).isSome ∧
        ∀ name, (tree.kind ref).declaredName? = some name → (step model).2.Binds scope name

namespace Declares

variable {α β : Type} {refs others : List Ref} {step : Resolving α} {next : α → Resolving β}

theorem bind (first : Declares tree nodes scope refs step)
    (second : ∀ value, Declares tree nodes scope others (next value)) :
    Declares tree nodes scope (refs ++ others) (step >>= next) := by
  intro model consistent isNew once
  obtain ⟨onceFirst, onceOthers, apart⟩ := List.nodup_append'.1 once
  obtain ⟨middle, kept, found⟩ :=
    first model consistent (fun ref member => isNew ref (List.mem_append_left _ member)) onceFirst
  have isNew (ref : Ref) (member : ref ∈ others) : (step model).2.declaredSymbol ref = none :=
    kept.elsewhere (fun before => apart before member) (isNew ref (List.mem_append_right _ member))
  obtain ⟨after, keptOthers, foundOthers⟩ :=
    second (step model).1 (step model).2 middle isNew onceOthers
  refine ⟨after, kept.trans keptOthers, fun ref member => ?_⟩
  rcases List.mem_append.1 member with member | member
  · obtain ⟨isDeclared, binds⟩ := found ref member
    exact ⟨keptOthers.declared isDeclared, fun name isName => keptOthers.binds (binds name isName)⟩
  · exact foundOthers ref member

theorem quiet (isQuiet : Quiet step) : Declares tree nodes scope [] step :=
    fun model consistent _ _ =>
  ⟨(isQuiet model).consistent consistent, (isQuiet model).keeps [], List.forall_mem_nil _⟩

theorem discard (declares : Declares tree nodes scope refs step) :
    Declares tree nodes scope refs (discard step) := declares

theorem declare (declarable : Declarable tree nodes scope ref name) (kind : SymbolKind)
    (type : DataType) :
    Declares tree nodes scope [ref] (Model.declare scope name kind type ref) := by
  intro model consistent isNew _
  have stored : ∃ number < model.facts.size, ref = some number :=
    consistent.sized ▸ declarable.stored
  obtain ⟨node, isNode, -⟩ := declarable.inside
  refine ⟨consistent.declare kind type declarable (isNew ref (.head _)),
    keeps_declare kind type stored, fun other member => ?_⟩
  obtain rfl := List.mem_singleton.1 member
  rw [declaredSymbol_declare kind type stored, if_pos rfl]
  refine ⟨rfl, fun other isName => ?_⟩
  obtain rfl := Option.some.inj (declarable.named.symm.trans isName)
  exact binds_declare kind type (consistent.scope_of_node isNode)

/-- Declaring at each of some nodes declares at all of them. -/
theorem forM {terms : List Outline} {places : Outline → List Ref} {step : Outline → Resolving PUnit}
    (each : ∀ term ∈ terms, Declares tree nodes scope (places term) (step term)) :
    Declares tree nodes scope (terms.flatMap places) (terms.forM step) := by
  induction terms with
  | nil => exact .quiet (.pure _)
  | cons term terms ih =>
    exact (each term (.head _)).bind fun _ => ih fun other member => each other (.tail _ member)

/-- Declaring each of some nodes declares all of them. -/
theorem forM_map {terms : List Outline} {step : Outline → Resolving PUnit}
    (each : ∀ term ∈ terms, Declares tree nodes scope [term.ref] (step term)) :
    Declares tree nodes scope (terms.map Term.ref) (terms.forM step) := by
  rw [List.map_eq_flatMap]
  exact forM each

end Declares

/-- Declaring the locals of statements declares their declarators. -/
theorem declares_predeclare {statements : List Outline}
    (each : ∀ statement ∈ statements, ∀ declarator ∈ statement.declarators,
      declarator.kind.isDeclarator ∧ ∀ name, declarator.kind.declaredName? = some name →
        Declarable tree nodes scope declarator.ref name) :
    Declares tree nodes scope
    (statements.flatMap fun statement => statement.declarators.map Term.ref)
      (predeclare scope statements) := by
  refine .forM fun statement member => ?_
  have each := each statement member
  rcases statement with ⟨place, form⟩
  cases form
  case localDecl type declarators =>
    refine .forM_map fun declarator member => ?_
    obtain ⟨isDeclarator, declarable⟩ := each declarator member
    rcases declarator with ⟨place, form⟩
    cases form <;> cases isDeclarator
    exact (Declares.declare (declarable _ rfl) _ _).discard
  all_goals exact .quiet (.pure _)

/-- Declaring parameters declares them. -/
theorem declares_declareParams {params : List Outline}
    (each : ∀ param ∈ params, param.kind.isParam ∧
      ∀ name, param.kind.declaredName? = some name → Declarable tree nodes scope param.ref name)
    (kind : SymbolKind) (typeOf : Option Outline → DataType) :
    Declares tree nodes scope (params.map Term.ref) (declareParams scope kind typeOf params) := by
  refine .forM_map fun param member => ?_
  obtain ⟨isParam, declarable⟩ := each param member
  rcases param with ⟨place, form⟩
  cases form <;> cases isParam
  exact (Declares.quiet (quiet_enter _ _)).bind fun _ =>
    (Declares.declare (declarable _ rfl) _ _).discard

end

end Model

end Refactory
