import Refactory.Proofs.Model.Scoping
import Refactory.Proofs.Model.Visits

/-!
# What names refer to

The walk that builds a model follows the reading of the program: while it goes through a part, its
innermost scope binds what the environment of the part tells (`Model.Reflects`), and each name that
it has visited refers to what the name meant in front of it (`Model.Understood`). What a step of the
walk does is said by `Model.Tracks`, which names the steps of the reading that it follows; steps one
after the other follow those of both (`Model.Tracks.bind`), and resolving a term follows the reading
of the term (`Model.reads_of_hasNames`).

So in the model of a program every name refers to the symbol of the node that the environment tells,
and to none where it tells of none (`Tree.IsProgram.symbolOf_visit`).
-/
namespace Refactory

variable {place : Place} {statements : List Outline}

namespace Model

open Term

variable {α β : Type} {model after : Model} {scope : ScopeId} {env : Environment} {name : String}
  {ref : Ref}

/-- The symbol of the node that an environment tells for a name. -/
def meaning (model : Model) (env : Environment) (name : String) : Option SymbolId :=
  (env.lookup name).bind model.declaredSymbol

/-- The nodes of an environment have symbols. -/
def Knows (model : Model) (env : Environment) : Prop :=
    ∀ binding ∈ env, (model.declaredSymbol binding.2).isSome

/-- A scope binds what an environment tells. -/
structure Reflects (model : Model) (scope : ScopeId) (env : Environment) : Prop where
  /-- The scope has been opened. -/
  inside : scope < model.scopes.size
  /-- The nodes of the environment have symbols. -/
  knows : model.Knows env
  /-- A lookup finds them. -/
  lookup : ∀ name, model.lookupIn scope name = model.meaning env name

/-- Every scope lies in scopes opened before. -/
def Layered (model : Model) : Prop :=
    ∀ ⦃id outer : ScopeId⦄ ⦃inner : Scope⦄, model.scopes[id]? = some inner →
  inner.parent = some outer → outer < id

/-- A visited name refers to what it means in the environment of the visit. -/
structure Understood (model : Model) (visit : Visit) : Prop where
  /-- The nodes of the environment have symbols. -/
  knows : model.Knows visit.env
  /-- A name refers to one of them. -/
  refers : ∀ name, visit.part.kind = .ident name →
    model.symbolOf visit.part.ref = model.meaning visit.env name

/-- Where the walk has come to: the open scopes with what they bind, the innermost first, the nodes
that it has still to go through, those of them that have symbols already, and the visits that it has
made. -/
structure Walking (model : Model) (scopes : List (ScopeId × Environment))
    (pending known : Ref → Prop) (done : List Visit) :
    Prop where
  /-- Every scope lies in scopes opened before. -/
  layered : model.Layered
  /-- The open scopes bind what their environments tell. -/
  reflects : ∀ entry ∈ scopes, model.Reflects entry.1 entry.2
  /-- They were opened one after the other. -/
  nested : scopes.Pairwise fun inner outer => outer.1 < inner.1
  /-- The pending nodes are stored. -/
  stored : ∀ ref, pending ref → ∃ number < model.facts.size, ref = some number
  /-- They refer to nothing so far. -/
  unreferred : ∀ ref, pending ref → model.symbolOf ref = none
  /-- Only the known ones have symbols. -/
  declared : ∀ ref, pending ref → ((model.declaredSymbol ref).isSome ↔ known ref)
  /-- What has been visited is understood, and its names are not pending. -/
  understood : ∀ visit ∈ done, model.Understood visit ∧
    ∀ name, visit.part.kind = .ident name → ¬pending visit.part.ref

section

variable {bound more : Nat} {id : ScopeId}

/-- A lookup that may go through the scope and those around it finds the same however many it may go
through. -/
theorem Layered.lookupWithin_eq (layered : model.Layered) (enough : id < bound)
    (enoughMore : id < more) :
    model.lookupWithin bound id name = model.lookupWithin more id name := by
  induction bound generalizing id more with
  | zero => exact absurd enough (Nat.not_lt_zero _)
  | succ bound ih =>
    obtain ⟨more, rfl⟩ := Nat.exists_eq_succ_of_ne_zero (Nat.ne_zero_of_lt enoughMore)
    cases found : model.scopes[id]? with
    | none => simp [lookupWithin, found]
    | some inner =>
      rw [lookupWithin_succ found, lookupWithin_succ found]
      cases parent : inner.parent with
      | none => rfl
      | some outer =>
        have before := layered found parent
        rw [Option.bind_some, Option.bind_some,
          ih (Nat.lt_of_lt_of_le before (Nat.le_of_lt_succ enough))
            (Nat.lt_of_lt_of_le before (Nat.le_of_lt_succ enoughMore))]

/-- A lookup depends on the scopes up to the given one only. -/
theorem Layered.lookupWithin_congr (layered : model.Layered)
    (same : ∀ other ≤ id, after.scopes[other]? = model.scopes[other]?) :
    after.lookupWithin bound id name = model.lookupWithin bound id name := by
  induction bound generalizing id with
  | zero => rfl
  | succ bound ih =>
    cases found : model.scopes[id]? with
    | none => simp [lookupWithin, found, same id (Nat.le_refl _)]
    | some inner =>
      rw [lookupWithin_succ found, lookupWithin_succ ((same id (Nat.le_refl _)).trans found)]
      cases parent : inner.parent with
      | none => rfl
      | some outer =>
        have before := layered found parent
        rw [Option.bind_some, Option.bind_some, ih fun other inside =>
          same other (Nat.le_trans inside (Nat.le_of_lt before))]

end

theorem meaning_congr
    (same : ∀ binding ∈ env, after.declaredSymbol binding.2 = model.declaredSymbol binding.2) :
    after.meaning env name = model.meaning env name := by
  rw [meaning, meaning]
  refine Option.bind_congr fun declaration found => ?_
  obtain ⟨front, back, rfl, -⟩ := List.lookup_eq_some_iff.1 found
  exact same _ (List.mem_append_right _ (.head _))

theorem Knows.congr (knows : model.Knows env)
    (same : ∀ binding ∈ env, after.declaredSymbol binding.2 = model.declaredSymbol binding.2) :
    after.Knows env :=
  fun binding member => same binding member ▸ knows binding member

/-- What is understood stays so while its names refer to what they referred to and no node gets
another symbol. -/
theorem Understood.keep {visit : Visit} (understood : model.Understood visit)
    (same : ∀ ref, (model.declaredSymbol ref).isSome →
      after.declaredSymbol ref = model.declaredSymbol ref)
    (refers : ∀ name, visit.part.kind = .ident name →
      after.symbolOf visit.part.ref = model.symbolOf visit.part.ref) :
    after.Understood visit := by
  have same (binding : String × Ref) (member : binding ∈ visit.env) :=
    same binding.2 (understood.knows binding member)
  refine ⟨understood.knows.congr same, fun name isName => ?_⟩
  rw [refers name isName, understood.refers name isName, meaning_congr same]

/-- What an open scope binds stays so while the scopes up to it stay and no node gets another
symbol. -/
theorem Reflects.keep (reflects : model.Reflects scope env) (layered : model.Layered)
    (layeredAfter : after.Layered) (more : model.scopes.size ≤ after.scopes.size)
    (scopes : ∀ other ≤ scope, after.scopes[other]? = model.scopes[other]?)
    (same : ∀ ref, (model.declaredSymbol ref).isSome →
      after.declaredSymbol ref = model.declaredSymbol ref) :
    after.Reflects scope env := by
  have same (binding : String × Ref) (member : binding ∈ env) :=
    same binding.2 (reflects.knows binding member)
  have inside := Nat.lt_of_lt_of_le reflects.inside more
  refine ⟨inside, reflects.knows.congr same, fun name => ?_⟩
  have fewer := @Layered.lookupWithin_eq after name after.scopes.size model.scopes.size scope
    layeredAfter inside reflects.inside
  rw [meaning_congr same, ← reflects.lookup, lookupIn, lookupIn, fewer]
  exact layered.lookupWithin_congr scopes

namespace Walking

variable {scopes : List (ScopeId × Environment)} {pending known fewer others : Ref → Prop}
  {done made : List Visit}

theorem mono (walking : Walking model scopes pending known done)
    (less : ∀ ref, fewer ref → pending ref) (same : ∀ ref, fewer ref → (known ref ↔ others ref))
    (among : made ⊆ done) : Walking model scopes fewer others made :=
  { walking with
    stored := fun ref isPending => walking.stored ref (less ref isPending)
    unreferred := fun ref isPending => walking.unreferred ref (less ref isPending)
    declared :=
      fun ref isPending => (walking.declared ref (less ref isPending)).trans (same ref isPending)
    understood :=
      fun visit member => ⟨(walking.understood visit (among member)).1, fun name isName isPending =>
      (walking.understood visit (among member)).2 name isName (less _ isPending)⟩ }

theorem quiet (walking : Walking model scopes pending known done) (alike : Alike model after) :
    Walking after scopes pending known done := by
  have layered : after.Layered :=
    fun _ _ _ found parent => walking.layered (alike.scopes ▸ found) parent
  refine ⟨layered, fun entry member => ?_, walking.nested, ?_, ?_, ?_, fun visit member => ?_⟩
  · exact (walking.reflects entry member).keep walking.layered layered (by rw [alike.scopes])
      (fun _ _ => by rw [alike.scopes]) fun ref _ => alike.declared ref
  · rw [alike.sized]
    exact walking.stored
  · simpa only [alike.refers] using walking.unreferred
  · simpa only [alike.declared] using walking.declared
  · obtain ⟨understood, notPending⟩ := walking.understood visit member
    exact ⟨understood.keep (fun ref _ => alike.declared ref) fun _ _ => alike.refers _, notPending⟩

/-- Declaring a name at a pending node that has no symbol binds the name in the innermost scope. -/
theorem declare (walking : Walking model ((scope, env) :: scopes) pending known done)
    (isPending : pending ref)
    (isNew : ¬known ref) (name : String) (kind : SymbolKind) (type : DataType) :
    Walking (Model.declare scope name kind type ref model).2
    ((scope, (name, ref) :: env) :: scopes) pending
      (fun other => known other ∨ other = ref) done := by
  have stored := walking.stored ref isPending
  have unknown : model.declaredSymbol ref = none := by
    rw [← Option.not_isSome_iff_eq_none, walking.declared ref isPending]
    exact isNew
  have declared := @declaredSymbol_declare model scope ref name kind type stored
  have refers := @symbolOf_declare model scope ref name kind type stored
  have scopesAfter := scopes_declare scope name kind type ref model
  have layered : (Model.declare scope name kind type ref model).2.Layered := by
    intro id outer inner found parent
    obtain ⟨before, isBefore, sameParent, -⟩ := exists_scope_of_declare kind type found
    exact walking.layered isBefore (sameParent ▸ parent)
  have sized : (Model.declare scope name kind type ref model).2.facts.size = model.facts.size :=
    facts_note ..
  generalize (Model.declare scope name kind type ref model).2
    = after at declared refers scopesAfter layered sized
  have same (other : Ref) (isSome : (model.declaredSymbol other).isSome) :
      after.declaredSymbol other = model.declaredSymbol other := by
    rw [declared, if_neg]
    rintro rfl
    rw [unknown] at isSome
    cases isSome
  have size : after.scopes.size = model.scopes.size := by rw [scopesAfter, Array.size_modify]
  have outside {other : ScopeId}
      (differ : other ≠ scope) : after.scopes[other]? = model.scopes[other]? := by
    rw [scopesAfter, Array.getElem?_modify, if_neg differ.symm]
  obtain ⟨innermost, nested⟩ := List.pairwise_cons.1 walking.nested
  refine ⟨layered, fun entry member => ?_, List.pairwise_cons.2 ⟨innermost, nested⟩, ?_, ?_,
    fun other pends => ?_, fun visit member => ?_⟩
  · rcases List.mem_cons.1 member with rfl | member
    · -- In the scope of the declaration the name is found at once, and the others where they were.
      have reflects := walking.reflects _ (.head _)
      have inside : scope < model.scopes.size := reflects.inside
      have sameHere (binding : String × Ref) (member : binding ∈ env) :=
        same binding.2 (reflects.knows binding member)
      refine ⟨by rw [size]; exact inside, fun binding member => ?_, fun other => ?_⟩
      · rcases List.mem_cons.1 member with rfl | member
        · rw [declared, if_pos rfl]
          rfl
        · exact reflects.knows.congr sameHere binding member
      · have before : model.scopes[scope]? = some model.scopes[scope] :=
          Array.getElem?_eq_getElem inside
        have here : after.scopes[scope]? = some { model.scopes[scope] with
            bindings := (name, model.symbols.size) :: model.scopes[scope].bindings } := by
          rw [scopesAfter, Array.getElem?_modify, if_pos rfl, before]
          rfl
        obtain ⟨bound, isSize⟩ := Nat.exists_eq_succ_of_ne_zero (Nat.ne_zero_of_lt inside)
        have found := reflects.lookup other
        rw [lookupIn, isSize, lookupWithin_succ before] at found
        rw [lookupIn, size, isSize, lookupWithin_succ here, meaning, List.lookup_cons,
          List.lookup_cons]
        cases isName : other == name with
        | true =>
          rw [Option.bind_some, declared, if_pos rfl]
          rfl
        | false =>
          change _ = after.meaning env other
          rw [meaning_congr sameHere, ← found]
          congr 1
          refine Option.bind_congr fun outer parent =>
            walking.layered.lookupWithin_congr fun deeper inside => outside ?_
          exact Nat.ne_of_lt (Nat.lt_of_le_of_lt inside (walking.layered before parent))
    · refine (walking.reflects entry (.tail _ member)).keep walking.layered layered
        (Nat.le_of_eq size.symm) (fun deeper inside => outside ?_) same
      exact Nat.ne_of_lt (Nat.lt_of_le_of_lt inside (innermost entry member))
  · rw [sized]
    exact walking.stored
  · simpa only [refers] using walking.unreferred
  · rw [declared]
    by_cases here : other = ref
    · simp [here]
    · rw [if_neg here, walking.declared other pends, or_iff_left here]
  · obtain ⟨understood, notPending⟩ := walking.understood visit member
    exact ⟨understood.keep same fun _ _ => refers _, notPending⟩

/-- A scope that is opened in the innermost one binds what this one binds. -/
theorem openScope (walking : Walking model ((scope, env) :: scopes) pending known done) :
    Walking (Model.openScope scope model).2
      ((model.scopes.size, env) :: (scope, env) :: scopes) pending known done := by
  have inside := (walking.reflects _ (.head _)).inside
  have before {other : ScopeId} (earlier : other < model.scopes.size) :
      (Model.openScope scope model).2.scopes[other]? = model.scopes[other]? := by
    change (model.scopes.push _)[other]? = _
    rw [Array.getElem?_push, if_neg (Nat.ne_of_lt earlier)]
  have here :
      (Model.openScope scope model).2.scopes[model.scopes.size]? = some ⟨some scope, []⟩ := by
    change (model.scopes.push _)[model.scopes.size]? = _
    rw [Array.getElem?_push, if_pos rfl]
  have size : (Model.openScope scope model).2.scopes.size = model.scopes.size + 1 :=
    Array.size_push ..
  have layered : (Model.openScope scope model).2.Layered := by
    intro id outer inner found parent
    rcases Nat.lt_trichotomy id model.scopes.size with earlier | rfl | later
    · exact walking.layered (before earlier ▸ found) parent
    · rw [here] at found
      obtain rfl := Option.some.inj found
      obtain rfl := Option.some.inj parent
      exact inside
    · rw [Array.getElem?_eq_none (by omega)] at found
      cases found
  have kept (entry : ScopeId × Environment) (member : entry ∈ (scope, env) :: scopes) :
      (Model.openScope scope model).2.Reflects entry.1 entry.2 := by
    have reflects := walking.reflects entry member
    have earlier := reflects.inside
    exact reflects.keep walking.layered layered (size ▸ Nat.le_succ _)
      (fun other upTo => before (Nat.lt_of_le_of_lt upTo earlier)) fun _ _ => rfl
  refine ⟨layered, fun entry member => ?_, List.pairwise_cons.2 ⟨fun entry member => ?_,
    walking.nested⟩, walking.stored, walking.unreferred, walking.declared, fun visit member => ?_⟩
  · rcases List.mem_cons.1 member with rfl | member
    · refine ⟨by rw [size]; exact Nat.lt_succ_self _, (kept _ (.head _)).knows, fun name => ?_⟩
      rw [← (kept _ (.head _)).lookup, lookupIn, lookupIn, size, lookupWithin_succ here]
      exact layered.lookupWithin_eq inside (Nat.lt_succ_of_lt inside)
    · exact kept entry member
  · exact (walking.reflects entry member).inside
  · obtain ⟨understood, notPending⟩ := walking.understood visit member
    exact ⟨understood.keep (fun _ _ => rfl) fun _ _ => rfl, notPending⟩

/-- Resolving a pending name makes it refer to what it means. -/
theorem resolveName {part : Outline} {listed : Bool}
    (walking : Walking model ((scope, env) :: scopes) pending known done)
    (isName : part.kind = .ident name) (isPending : pending part.ref) :
    Walking (Model.resolveName scope name part.ref model).2 ((scope, env) :: scopes)
      (fun other => pending other ∧ other ≠ part.ref) known (⟨part, listed, env⟩ :: done) := by
  have reflects := walking.reflects _ (.head _)
  have found := reflects.lookup name
  have fewer : Walking model ((scope, env) :: scopes)
      (fun other => pending other ∧ other ≠ part.ref) known done :=
    walking.mono (fun _ isPending => isPending.1) (fun _ _ => Iff.rfl) (List.Subset.refl _)
  have spelled {other : String} (isOther : part.kind = .ident other) : name = other := by
    rw [isName] at isOther
    cases isOther
    rfl
  cases meant : model.lookupIn scope name with
  | none =>
    rw [resolveName_of_none meant]
    have understood : model.Understood ⟨part, listed, env⟩ := by
      refine ⟨reflects.knows, fun other isOther => ?_⟩
      obtain rfl := spelled isOther
      exact (walking.unreferred _ isPending).trans (meant.symm.trans found)
    refine { fewer with understood := List.forall_mem_cons.2 ⟨⟨understood, ?_⟩, fewer.understood⟩ }
    exact fun _ _ isPending => isPending.2 rfl
  | some symbol =>
    rw [resolveName_of_some meant]
    have facts := factsOf_note_stored part.ref model
      (fun facts => { facts with reference := some symbol, type := model.symbolType symbol })
      (walking.stored _ isPending)
    have scopesAfter := scopes_note part.ref
      (fun facts => { facts with reference := some symbol, type := model.symbolType symbol }) model
    have sized := facts_note part.ref
      (fun facts => { facts with reference := some symbol, type := model.symbolType symbol }) model
    generalize (note part.ref (fun facts =>
      { facts with reference := some symbol, type := model.symbolType symbol }) model).2 =
      after at facts scopesAfter sized
    have declared (other : Ref) : after.declaredSymbol other = model.declaredSymbol other := by
      rw [declaredSymbol, facts, declaredSymbol]
      split <;> rfl
    have refers (other : Ref) : after.symbolOf other = if other = part.ref then some symbol
        else model.symbolOf other := by
      rw [symbolOf, facts, symbolOf]
      split <;> rfl
    have layered : after.Layered :=
      fun _ _ _ found parent => walking.layered (scopesAfter ▸ found) parent
    have same (other : Ref) (_ : (model.declaredSymbol other).isSome) := declared other
    have understood : after.Understood ⟨part, listed, env⟩ := by
      refine ⟨reflects.knows.congr fun binding _ => declared _, fun other isOther => ?_⟩
      obtain rfl := spelled isOther
      rw [refers, if_pos rfl, meaning_congr fun _ _ => declared _, ← meant]
      exact found
    constructor
    case layered => exact layered
    case nested => exact walking.nested
    case reflects =>
      intro entry member
      exact (walking.reflects entry member).keep walking.layered layered (by rw [scopesAfter])
        (fun _ _ => by rw [scopesAfter]) same
    case stored =>
      rw [sized]
      exact fewer.stored
    case unreferred =>
      intro other pends
      rw [refers, if_neg pends.2]
      exact walking.unreferred other pends.1
    case declared => simpa only [declared] using fewer.declared
    case understood =>
      refine List.forall_mem_cons.2 ⟨⟨understood, fun _ _ pends => pends.2 rfl⟩, ?_⟩
      intro visit member
      obtain ⟨understood, notPending⟩ := walking.understood visit member
      refine ⟨understood.keep same fun name isName => ?_, fun name isName pends => ?_⟩
      · rw [refers, if_neg]
        intro here
        exact notPending name isName (here ▸ isPending)
      · exact notPending name isName pends.1

end Walking

/-- The steps of a reading that a step of the walk follows: those whose bindings stay and those in a
scope of its own. It goes through some nodes, of which the declared ones have symbols before. -/
def Tracks (scope : ScopeId) (refs : List Ref) (declared : Ref → Prop) (steps inner : List Step)
    (walk : Resolving α) :
    Prop := refs.Nodup → ∀ model env scopes pending known done,
    Walking model ((scope, env) :: scopes) pending known done →
  (∀ ref ∈ refs, pending ref ∧ (known ref ↔ declared ref)) → Walking (walk model).2
    ((scope, environmentAfter steps env) :: scopes) (fun ref => pending ref ∧ ref ∉ refs) known
      (visitsOf steps env ++ visitsOf inner (environmentAfter steps env) ++ done)

namespace Tracks

variable {refs others : List Ref} {declared : Ref → Prop} {steps later inner : List Step}
  {walk : Resolving α} {next : α → Resolving β}

theorem bind (first : Tracks scope refs declared steps [] walk)
    (second : ∀ value, Tracks scope others declared later inner (next value)) :
    Tracks scope (refs ++ others) declared (steps ++ later) inner (walk >>= next) := by
  intro once model env scopes pending known done walking known
  obtain ⟨onceFirst, onceOthers, apart⟩ := List.nodup_append'.1 once
  have middle := first onceFirst model env scopes pending _ done walking fun ref member =>
    known ref (List.mem_append_left _ member)
  have last :=
    second (walk model).1 onceOthers (walk model).2 _ scopes _ _ _ middle fun ref member =>
    ⟨⟨(known ref (List.mem_append_right _ member)).1, fun before => apart before member⟩,
      (known ref (List.mem_append_right _ member)).2⟩
  rw [environmentAfter_append, visitsOf_append]
  refine last.mono (fun ref isPending => ?_) (fun _ _ => Iff.rfl) fun visit member => ?_
  · obtain ⟨isPending, absent⟩ := isPending
    exact ⟨⟨isPending, fun member => absent (List.mem_append_left _ member)⟩, fun member =>
      absent (List.mem_append_right _ member)⟩
  · simp only [List.mem_append, visitsOf_nil, List.not_mem_nil, or_false] at member ⊢
    tauto

theorem quiet (isQuiet : Quiet walk) : Tracks scope [] declared [] [] walk := by
  intro _ model env scopes pending known done walking _
  exact (walking.quiet (isQuiet model)).mono (fun _ isPending => isPending.1) (fun _ _ => Iff.rfl)
    (List.Subset.refl _)

/-- A quiet step before. -/
theorem afterQuiet {quiet : Resolving α} {walk : α → Resolving β} (isQuiet : Quiet quiet)
    (follows : ∀ value, Tracks scope refs declared steps inner (walk value)) :
    Tracks scope refs declared steps inner (quiet >>= walk) := (Tracks.quiet isQuiet).bind follows

/-- A quiet step afterwards. -/
theorem beforeQuiet {quiet : α → Resolving β}
    (follows : Tracks scope refs declared steps inner walk)
    (isQuiet : ∀ value, Quiet (quiet value)) :
    Tracks scope refs declared steps inner (walk >>= quiet) := by
  intro once model env scopes pending known done walking isKnown
  exact (follows once model env scopes pending known done walking isKnown).quiet (isQuiet _ _)

/-- Other nodes may be passed over. -/
theorem pass (follows : Tracks scope refs declared steps inner walk) (more : refs.Subperm others) :
    Tracks scope others declared steps inner walk := by
  intro once model env scopes pending known done walking isKnown
  obtain ⟨same, perm, sub⟩ := more
  refine (follows (perm.nodup_iff.1 (once.sublist sub)) model env scopes pending known done walking
    fun ref member => isKnown ref (sub.subset (perm.symm.subset member))).mono
    (fun ref isPending => ?_) (fun _ _ => Iff.rfl) (List.Subset.refl _)
  exact ⟨isPending.1, fun member => isPending.2 (sub.subset (perm.symm.subset member))⟩

theorem congr {fewer : Ref → Prop} (follows : Tracks scope refs declared steps inner walk)
    (same : ∀ ref ∈ refs, declared ref ↔ fewer ref) : Tracks scope refs fewer steps inner walk :=
  fun once model env scopes pending known done walking isKnown =>
    follows once model env scopes pending known done walking
    fun ref member => ⟨(isKnown ref member).1, (isKnown ref member).2.trans (same ref member).symm⟩

/-- Opening a scope and following some steps in it. -/
theorem opened {walk : ScopeId → Resolving α}
    (follows : ∀ scope, Tracks scope refs declared steps [] (walk scope)) :
    Tracks scope refs declared [] steps (openScope scope >>= walk) := by
  intro once model env scopes pending known done walking isKnown
  have walked := follows _ once _ _ _ _ _ _ walking.openScope isKnown
  rw [visitsOf_nil, List.append_nil] at walked
  exact { walked with
    reflects := fun entry member => walked.reflects entry (.tail _ member)
    nested := (List.pairwise_cons.1 walked.nested).2 }

/-- What happens at a node is followed where the node is read. -/
theorem node {form : Form Place} {listed : Bool} (noName : ∀ name, form ≠ .ident name)
    (follows : Tracks scope refs declared (outerSteps listed place.ref form)
      (innerSteps place.ref form) walk)
    (more : refs.Subperm (Term.node place form).refs) :
    Tracks scope (Term.node place form).refs declared [.read listed (.node place form)]
    [] walk := by
  intro once model env scopes pending known done walking isKnown
  have walked := follows.pass more once model env scopes pending known done walking isKnown
  rw [environmentAfter_read, environmentAfter_nil, visitsOf_read, visitsOf_nil, List.append_nil,
    List.append_nil, environment_node, visits_node]
  refine { walked with understood := List.forall_mem_cons.2 ⟨⟨⟨?_, fun name isName => ?_⟩,
    fun name isName => ?_⟩, walked.understood⟩ }
  · have grows : env ⊆ environment listed (.node place form) env :=
      (@reading_invariant listed (.node place form) env (env ⊆ ·) (List.Subset.refl _)
        fun _ _ _ _ _ among => List.Subset.trans among (List.subset_cons_self _ _)).1
    rw [environment_node] at grows
    exact fun binding member => (walked.reflects _ (.head _)).knows binding (grows member)
  · exact absurd isName (noName name)
  · exact absurd isName (noName name)

end Tracks

/-- A step of the walk that binds the names of some terms and gives them symbols. -/
def Announces (scope : ScopeId) (terms : List Outline) (walk : Resolving α) : Prop :=
  (terms.map Term.ref).Nodup → ∀ model env scopes pending known done,
    Walking model ((scope, env) :: scopes) pending known done →
    (∀ term ∈ terms, pending term.ref ∧ ¬known term.ref) →
      Walking (walk model).2 ((scope, environmentAfter (bindings terms) env) :: scopes) pending
        (fun ref => known ref ∨ ref ∈ terms.map Term.ref) done

namespace Announces

variable {terms others : List Outline} {walk : Resolving α} {next : α → Resolving β}

theorem bind (first : Announces scope terms walk)
    (second : ∀ value, Announces scope others (next value)) :
    Announces scope (terms ++ others) (walk >>= next) := by
  intro once model env scopes pending known done walking isNew
  rw [List.map_append] at once
  obtain ⟨onceFirst, onceOthers, apart⟩ := List.nodup_append'.1 once
  have middle := first onceFirst model env scopes pending known done walking fun term member =>
    isNew term (List.mem_append_left _ member)
  have last := second (walk model).1 onceOthers _ _ _ _ _ _ middle fun term member => by
    obtain ⟨isPending, unknown⟩ := isNew term (List.mem_append_right _ member)
    refine ⟨isPending, not_or_intro unknown fun before => apart before (List.mem_map_of_mem member)⟩
  rw [bindings, List.filterMap_append, environmentAfter_append]
  exact last.mono (fun _ isPending => isPending) (fun ref _ => by simp [or_assoc])
    (List.Subset.refl _)

theorem quiet (isQuiet : Quiet walk) : Announces scope [] walk :=
    fun _ model env scopes pending known done walking _ =>
  (walking.quiet (isQuiet model)).mono (fun _ isPending => isPending) (fun _ _ => by simp)
  (List.Subset.refl _)

theorem discard (announces : Announces scope terms walk) : Announces scope terms (discard walk) :=
    announces

/-- Declaring the name of a term. -/
theorem declare {term : Outline} (isName : term.kind.declaredName? = some name) (kind : SymbolKind)
    (type : DataType) :
    Announces scope [term] (Model.declare scope name kind type term.ref) := by
  intro _ model env scopes pending known done walking isNew
  obtain ⟨isPending, unknown⟩ := isNew term (.head _)
  have bound : bindings [term] = [.bind name term.ref] := by simp [bindings, isName]
  rw [bound, environmentAfter_bind, environmentAfter_nil]
  exact (walking.declare isPending unknown name kind type).mono (fun _ isPending => isPending)
    (fun _ _ => by simp)
    (List.Subset.refl _)

theorem forM {step : Outline → Resolving PUnit} {places : Outline → List Outline}
    (each : ∀ statement ∈ statements, Announces scope (places statement) (step statement)) :
    Announces scope (statements.flatMap places) (statements.forM step) := by
  induction statements with
  | nil => exact .quiet (.pure _)
  | cons statement statements ih =>
    exact (each statement (.head _)).bind fun _ => ih fun other member =>
      each other (.tail _ member)

theorem forM_each {step : Outline → Resolving PUnit}
    (each : ∀ term ∈ terms, Announces scope [term] (step term)) :
    Announces scope terms (terms.forM step) := by
  have all : Announces scope (terms.flatMap fun term => [term]) (terms.forM step) := .forM each
  rwa [List.flatMap_singleton'] at all

/-- What has been announced is bound in what follows. -/
theorem follows {refs all : List Ref} {declared : Ref → Prop}
    {steps : List Step} (announces : Announces scope terms walk) (follows : all.Nodup → ∀ value,
      Tracks scope refs (fun ref => declared ref ∨ ref ∈ terms.map Term.ref) steps [] (next value))
    (among : (terms.map Term.ref).Sublist all) (more : refs.Sublist all)
    (isNew : ∀ term ∈ terms, ¬declared term.ref) :
    Tracks scope all declared (bindings terms ++ steps) [] (walk >>= next) := by
  intro once model env scopes pending known done walking isKnown
  have middle :=
    announces (once.sublist among) model env scopes pending known done walking fun term member => by
    obtain ⟨isPending, same⟩ := isKnown term.ref (among.subset (List.mem_map_of_mem member))
    exact ⟨isPending, fun isKnown => isNew term member (same.1 isKnown)⟩
  have last :=
    (follows once (walk model).1).pass more.subperm once _ _ _ _ _ _ middle fun ref member =>
    ⟨(isKnown ref member).1, or_congr_left (isKnown ref member).2⟩
  rw [environmentAfter_append, visitsOf_bindings]
  exact last.mono (fun _ isPending => isPending)
    (fun ref isPending => or_iff_left fun member => isPending.2 (among.subset member))
    (List.Subset.refl _)

end Announces

/-- Predeclaring announces the declarators of the statements. -/
theorem announces_predeclare (sorts : ∀ statement ∈ statements, HasSorts statement) :
    Announces scope (statements.flatMap declarators) (predeclare scope statements) := by
  refine .forM fun statement member => ?_
  have sort := sorts statement member
  rcases statement with ⟨place, form⟩
  cases form
  case localDecl type locals =>
    refine .forM_each fun declarator member => ?_
    have isDeclarator := sort.2 declarator member
    rcases declarator with ⟨place, form⟩
    cases form <;> cases isDeclarator
    exact (Announces.declare rfl _ _).discard
  all_goals exact .quiet (.pure _)

/-- Declaring parameters announces them. -/
theorem announces_declareParams {params : List Outline}
    (areParams : ∀ param ∈ params, param.kind.isParam)
    (kind : SymbolKind) (typeOf : Option Outline → DataType) :
    Announces scope params (declareParams scope kind typeOf params) := by
  refine .forM_each fun param member => ?_
  have isParam := areParams param member
  rcases param with ⟨place, form⟩
  cases form <;> cases isParam
  exact (Announces.quiet (quiet_enter _ _)).bind fun _ => (Announces.declare rfl _ _).discard

theorem Tracks.cast {refs : List Ref} {declared : Ref → Prop} {steps inner later deeper : List Step}
    {walk : Resolving α}
    (follows : Tracks scope refs declared steps inner walk) (sameSteps : later = steps)
    (sameInner : deeper = inner) :
    Tracks scope refs declared later deeper walk := sameSteps ▸ sameInner ▸ follows

/-- Settling a local binds its name, unless it has been bound before. -/
theorem tracks_settleLocal (listed : Bool) (type : DataType) :
    Tracks scope [ref] (fun _ => listed = true) (if listed then [] else [.bind name ref]) []
      (settleLocal scope name type ref) := by
  intro _ model env scopes pending known done walking isKnown
  obtain ⟨isPending, isKnown⟩ := isKnown ref (.head _)
  have declared := (walking.declared ref isPending).trans isKnown
  cases listed with
  | true =>
    obtain ⟨symbol, found⟩ := Option.isSome_iff_exists.1 (declared.2 rfl)
    rw [settleLocal_of_some found]
    exact (walking.quiet (quiet_setSymbolType symbol type model)).mono
      (fun _ isPending => isPending.1) (fun _ _ => Iff.rfl) (List.Subset.refl _)
  | false =>
    have missing : model.declaredSymbol ref = none :=
      Option.not_isSome_iff_eq_none.1 fun isSome => by
      cases declared.1 isSome
    rw [settleLocal_of_none missing]
    refine ((walking.declare isPending (by simp [isKnown]) name .local .unknown).quiet
      (quiet_setSymbolType ..)).mono
      (fun _ isPending => isPending.1) (fun other isPending => or_iff_left ?_) (List.Subset.refl _)
    exact fun here => isPending.2 (here ▸ .head _)

/-- Resolving a term follows the reading of it. Only its declarators may have symbols before. -/
def Reads (term : Outline) : Prop := ∀ scope given listed (declared : Ref → Prop),
  (∀ ref ∈ term.refs, declared ref ↔ listed = true ∧ ref ∈ term.declarators.map Term.ref) →
    Tracks scope term.refs declared [.read listed term] [] (resolve scope given term)

section

variable {declared : Ref → Prop} {listed : Bool} {given : DataType}

theorem tracks_resolveAll {terms : List Outline} (reads : ∀ term ∈ terms, Reads term)
    (same : ∀ term ∈ terms, ∀ ref ∈ term.refs, declared ref ↔
      listed = true ∧ ref ∈ term.declarators.map Term.ref) :
    Tracks scope (terms.flatMap Term.refs) declared (terms.map (.read listed)) []
    (resolveAll scope given terms) := by
  induction terms with
  | nil =>
    rw [resolveAll]
    exact .quiet (.pure _)
  | cons term terms ih =>
    rw [resolveAll]
    exact (reads term (.head _) scope given listed declared (same term (.head _))).bind fun _ =>
      ih (fun other member => reads other (.tail _ member)) fun other member =>
      same other (.tail _ member)

theorem tracks_resolveSome {term : Option Outline} (reads : ∀ inner ∈ term, Reads inner)
    (none : ∀ inner ∈ term, ∀ ref ∈ inner.refs, ¬declared ref) :
    Tracks scope (term.toList.flatMap Term.refs) declared (term.toList.map (.read false)) []
    (resolveSome scope given term) := by
  cases term with
  | none =>
    rw [resolveSome]
    exact .quiet (.pure _)
  | some term =>
    rw [resolveSome, Option.toList_some, List.flatMap_singleton]
    exact reads term rfl scope given false declared fun ref member =>
      iff_of_false (none term rfl ref member) (by simp)

/-- Resolving declarators follows the reading of them. -/
theorem tracks_resolveDeclarators {terms : List Outline} {written : Option DataType}
    (areDeclarators : ∀ term ∈ terms, term.kind.isDeclarator)
    (reads : ∀ term ∈ terms, ∀ value ∈ term.children, Reads value)
    (same : ∀ term ∈ terms, ∀ ref ∈ term.refs, declared ref ↔ listed = true ∧ ref = term.ref) :
    (terms.flatMap Term.refs).Nodup →
    Tracks scope (terms.flatMap Term.refs) declared (terms.map (.read listed)) []
      (resolveDeclarators scope written terms) := by
  induction terms with
  | nil =>
    rw [resolveDeclarators]
    exact fun _ => .quiet (.pure _)
  | cons term terms ih =>
    intro once
    rw [List.flatMap_cons] at once
    obtain ⟨onceTerm, onceOthers, -⟩ := List.nodup_append'.1 once
    have others := ih (fun other member => areDeclarators other (.tail _ member))
      (fun other member => reads other (.tail _ member))
      (fun other member => same other (.tail _ member)) onceOthers
    have isDeclarator := areDeclarators term (.head _)
    have sameHere := same term (.head _)
    have readsValue := reads term (.head _)
    rcases term with ⟨place, form⟩
    cases form <;> cases isDeclarator
    rename_i name value
    rw [resolveDeclarators]
    have notValue {ref : Ref} (below : ref ∈ value.toList.flatMap Term.refs) : ref ≠ place.ref := by
      rintro rfl
      exact ref_not_mem_innerRefs onceTerm
        (mem_innerRefs.2 (by simpa [children, kind, parts] using below))
    have value' :
        Tracks scope (value.toList.flatMap Term.refs) declared (value.toList.map (.read false)) []
          (resolveSome scope .unknown value) :=
      tracks_resolveSome (fun inner isInner =>
        readsValue inner (by simp [children, kind, parts, Option.mem_def.1 isInner]))
        fun inner isInner ref member isDeclared => by
          have below : ref ∈ value.toList.flatMap Term.refs :=
            List.mem_flatMap.2 ⟨inner, Option.mem_toList.2 isInner, member⟩
          have within : ref ∈ (Term.node place (.declarator name value)).refs := by
            rw [refs_node]
            exact List.mem_cons_of_mem _ (by simpa [parts] using below)
          exact notValue below ((sameHere ref within).1 isDeclared).2
    have settle (type : DataType) :
        Tracks scope [place.ref] declared (if listed then [] else [.bind name place.ref]) []
          (settleLocal scope name type place.ref) :=
          (tracks_settleLocal listed type).congr fun ref member => by
      obtain rfl := List.mem_singleton.1 member
      exact ((sameHere _ (ref_mem_refs _)).trans (and_iff_left rfl)).symm
    change Tracks scope _ declared ([.read listed _] ++ _) [] ((enter scope place.ref >>= fun _ =>
      resolveSome scope .unknown value >>= fun _ => get >>= fun model =>
        settleLocal scope name (written.getD (model.childType value)) place.ref) >>= fun _ =>
        resolveDeclarators scope written terms)
    refine .bind ?_ fun _ => others
    refine .node (by simp) (.afterQuiet (quiet_enter _ _) fun _ =>
      .cast (value'.bind fun _ => .afterQuiet .get fun _ => settle _) ?_ rfl) ?_
    · cases listed <;> simp [outerSteps, Kind.outerTasks, stepsOf, termsAt, Kind.declaredName?]
    · refine List.Perm.subperm ?_
      simp [refs_node, parts]

/-- Resolving a node that is no name follows what happens at it. -/
theorem tracks_node {form : Form Place} (refs : List Ref) (noName : form.isIdent = false)
    (follows : Tracks scope refs declared (outerSteps listed place.ref form)
      (innerSteps place.ref form)
      (resolveForm scope given place.ref form)) (more : refs.Subperm (Term.node place form).refs) :
    Tracks scope (Term.node place form).refs declared [.read listed (.node place form)] []
      (resolve scope given (.node place form)) := by
  rw [resolve]
  refine .node (fun name same => ?_)
    (.afterQuiet (quiet_enter _ _) fun _ => follows.beforeQuiet fun _ => quiet_infer _ _) more
  rw [same] at noName
  cases noName

/-- Resolving a name follows the reading of it. -/
theorem tracks_ident {name : String} :
    Tracks scope (Term.node place (.ident name)).refs declared
    [.read listed (.node place (.ident name))] []
      (resolve scope given (.node place (.ident name))) := by
  rw [resolve]
  refine .afterQuiet (quiet_enter _ _) fun _ => .beforeQuiet ?_ fun _ => quiet_infer _ _
  intro _ model env scopes pending known done walking isKnown
  obtain ⟨isPending, -⟩ := isKnown place.ref (ref_mem_refs _)
  rw [resolveForm]
  have resolved :=
    @Walking.resolveName _ _ _ name _ _ _ _ (.node place (.ident name)) listed walking rfl isPending
  have read : visits listed (.node place (.ident name)) env
      = [⟨.node place (.ident name), listed, env⟩] := by
    rw [visits_node]
    rfl
  rw [environmentAfter_read, environmentAfter_nil, environment_node, visitsOf_read, read]
  refine resolved.mono (fun ref isPending => ⟨isPending.1, fun here => isPending.2 ?_⟩)
    (fun _ _ => Iff.rfl) (List.Subset.refl _)
  rw [here]
  exact ref_mem_refs _

/-- Names that statements declare are bound before the statements are read. -/
theorem tracks_statements (sorts : ∀ statement ∈ statements, HasSorts statement)
    (reads : ∀ statement ∈ statements, Reads statement)
    (none : ∀ ref ∈ statements.flatMap Term.refs, ¬declared ref) :
    Tracks scope (statements.flatMap Term.refs) declared
      (bindings (statements.flatMap declarators) ++ statements.map (.read true)) []
      (predeclare scope statements >>= fun _ => resolveAll scope given statements) := by
  have same : (statements.flatMap declarators).map Term.ref = statements.flatMap fun statement =>
      statement.declarators.map Term.ref :=
    List.map_flatMap ..
  have among :
      ((statements.flatMap declarators).map Term.ref).Sublist (statements.flatMap Term.refs) := by
    rw [same]
    exact List.Sublist.flatMap_right _ fun statement _ => declarators_sublist statement
  refine (announces_predeclare sorts).follows
    (fun once _ => tracks_resolveAll reads fun statement member ref within => ?_)
    among (List.Sublist.refl _) fun term member =>
    none _ (among.subset (List.mem_map_of_mem member))
  rw [or_iff_right (none ref (List.mem_flatMap.2 ⟨statement, member, within⟩)), same]
  constructor
  · exact fun isDeclared => ⟨rfl, mem_declarators_of_mem once member within isDeclared⟩
  · exact fun isDeclared => List.mem_flatMap.2 ⟨statement, member, isDeclared.2⟩

/-- Parameters are bound before what follows them. -/
theorem tracks_params {params : List Outline} {refs : List Ref}
    {steps : List Step} {walk : Resolving PUnit} (areParams : ∀ param ∈ params, param.kind.isParam)
    (none : ∀ param ∈ params, ¬declared param.ref)
    (follows : Tracks scope refs declared steps [] walk) (kind : SymbolKind)
    (typeOf : Option Outline → DataType) :
    Tracks scope (params.flatMap Term.refs ++ refs) declared (bindings params ++ steps) []
      (declareParams scope kind typeOf params >>= fun _ => walk) := by
  have among :=
    (map_ref_sublist params).trans (List.sublist_append_left (params.flatMap Term.refs) refs)
  refine (announces_declareParams areParams kind typeOf).follows
    (fun once _ => follows.congr fun ref member => ?_) among
    (List.sublist_append_right _ _) none
  obtain ⟨-, -, apart⟩ := List.nodup_append'.1 once
  exact (or_iff_left fun isParam => apart ((map_ref_sublist params).subset isParam) member).symm

end

/-- Names mean something in every term that is no type, parameter or declarator, and resolving it
follows the reading of it. -/
theorem reads_of_hasNames {term : Outline} (sorts : term.All HasSorts)
    (named : term.kind.hasNames) : Reads term := by
  -- Declarators are passed over, so what is below the children is resolved from here as well.
  suffices both : (term.kind.hasNames → Reads term) ∧ ∀ child ∈ term.children, child.kind.hasNames →
      Reads child from
    both.1 named
  clear named
  induction term using Term.induction with
  | step place form ih =>
    have below (child : Outline) (member : child ∈ parts form) : child.kind.hasNames →
        Reads child := (ih child member (sorts.child member)).1
    refine ⟨fun named scope given listed declared same => ?_, below⟩
    have sort := sorts.here
    have inside {child : Outline} (member : child ∈ parts form) {ref : Ref}
        (within : ref ∈ child.refs) :
        ref ∈ (Term.node place form).refs := by
      rw [refs_node]
      exact .tail _ (List.mem_flatMap.2 ⟨child, member, within⟩)
    -- Below all but declarations nothing has a symbol before.
    have one (none : ∀ ref ∈ (Term.node place form).refs, ¬declared ref) {child : Option Outline}
        {scope : ScopeId} {given : DataType} (named : ∀ inner ∈ child, inner.kind.hasNames)
        (held : ∀ inner ∈ child, inner ∈ parts form := by simp +contextual [parts]) :
        Tracks scope (child.toList.flatMap Term.refs) declared (child.toList.map (.read false)) []
          (resolveSome scope given child) := tracks_resolveSome
      (fun inner isInner => below inner (held inner isInner) (named inner isInner))
        fun inner isInner ref within => none ref (inside (held inner isInner) within)
    have plain (none : ∀ ref ∈ (Term.node place form).refs, ¬declared ref)
        (sort : ∀ child ∈ parts form, child.kind.hasNames)
        {child : Option Outline} {scope : ScopeId} {given : DataType}
        (held : ∀ inner ∈ child, inner ∈ parts form := by simp +contextual [parts]) :=
      @one none child scope given (fun inner isInner => sort inner (held inner isInner)) held
    have plainAll (none : ∀ ref ∈ (Term.node place form).refs, ¬declared ref)
        (sort : ∀ child ∈ parts form, child.kind.hasNames) {children : List Outline}
        {scope : ScopeId} {given : DataType}
        (held : ∀ inner ∈ children, inner ∈ parts form := by simp +contextual [parts]) :
        Tracks scope (children.flatMap Term.refs) declared (children.map (.read false)) []
          (resolveAll scope given children) := tracks_resolveAll
      (fun inner isInner => below inner (held inner isInner) (sort inner (held inner isInner)))
        fun inner isInner ref within =>
      iff_of_false (none ref (inside (held inner isInner) within)) (by simp)
    cases form
    case unit | param | declarator | typeRef => cases named
    case localDecl type declarators =>
      obtain ⟨-, areDeclarators⟩ := sort
      intro once
      have onceBelow : (declarators.flatMap Term.refs).Nodup :=
        once.sublist (by simp [refs_node, parts])
      have held {declarator : Outline} (member : declarator ∈ declarators) :
          declarator ∈ parts (.localDecl type declarators) := by
        simp [parts, member]
      refine tracks_node (declarators.flatMap Term.refs) rfl ?_ ?_ once
      · rw [resolveForm]
        refine Tracks.cast
          (tracks_resolveDeclarators areDeclarators (fun declarator member value isValue => ?_)
          (fun declarator member ref within => ?_) onceBelow) (show _ = declarators.map
          (Step.read listed) by simp [outerSteps, Kind.outerTasks, stepsOf, termsAt]) rfl
        · refine (ih declarator (held member) (sorts.child (held member))).2 value isValue ?_
          have sort := (sorts.child (held member)).here
          have isDeclarator := areDeclarators declarator member
          rcases declarator with ⟨place, form⟩
          cases form <;> cases isDeclarator
          exact sort value isValue
        · rw [same ref (inside (held member) within)]
          refine and_congr_right fun _ =>
            ⟨fun isDeclared => ?_, fun here => here ▸ List.mem_map_of_mem member⟩
          by_contra differ
          rw [refs_eq] at within
          exact not_mem_map_ref onceBelow member
            ((List.mem_cons.1 within).resolve_left differ) isDeclared
      · exact List.Sublist.subperm (by simp [refs_node, parts])
    all_goals
      have none : ∀ ref ∈ (Term.node place _).refs, ¬declared ref := fun ref within => by
        rw [same ref within]
        exact fun isDeclared => absurd isDeclared.2 List.not_mem_nil
    case ident name => exact tracks_ident
    case method result name params body =>
      obtain ⟨-, areParams, named⟩ := sort
      refine tracks_node (params.flatMap Term.refs ++ body.toList.flatMap Term.refs) rfl ?_ ?_
      · rw [resolveForm]
        refine Tracks.cast (.opened fun inner => tracks_params areParams (fun param member => ?_)
          (one none named) _ _) (by simp [outerSteps, Kind.outerTasks])
          (by simp [innerSteps, Kind.innerTasks, stepsOf, termsAt])
        exact none _ (inside (by simp [parts, member]) (ref_mem_refs param))
      · exact List.Sublist.subperm (by simp [refs_node, parts])
    case lambda params body parenthesized =>
      obtain ⟨areParams, named⟩ := sort
      refine tracks_node (params.flatMap Term.refs ++ body.toList.flatMap Term.refs) rfl ?_ ?_
      · rw [resolveForm]
        refine Tracks.cast (.opened fun inner => tracks_params areParams (fun param member => ?_)
          (one none named) _ _) (by simp [outerSteps, Kind.outerTasks])
          (by simp [innerSteps, Kind.innerTasks, stepsOf, termsAt])
        exact none _ (inside (by simp [parts, member]) (ref_mem_refs param))
      · exact List.Sublist.subperm (by simp [refs_node, parts])
    case block statements =>
      have held {statement : Outline}
          (member : statement ∈ statements) : statement ∈ parts (.block statements) := by
        simp [parts, member]
      refine tracks_node (statements.flatMap Term.refs) rfl ?_
        (List.Sublist.subperm (by simp [refs_node, parts]))
      rw [resolveForm]
      refine Tracks.cast (.opened fun inner =>
        tracks_statements (fun statement member => (sorts.child (held member)).here)
          (fun statement member => below statement (held member) (sort statement (held member)))
        fun ref within => ?_) (by simp [outerSteps, Kind.outerTasks])
        (by simp [innerSteps, Kind.innerTasks, stepsOf, termsAt])
      obtain ⟨statement, member, within⟩ := List.mem_flatMap.1 within
      exact none ref (inside (held member) within)
    case forLoop declaration initializers condition incrementors body =>
      refine tracks_node (declaration.toList.flatMap Term.refs ++ (initializers.flatMap Term.refs ++
        (condition.toList.flatMap Term.refs ++
        (incrementors.flatMap Term.refs ++ body.toList.flatMap Term.refs)))) rfl ?_
        (List.Sublist.subperm (by simp [refs_node, parts]))
      rw [resolveForm]
      exact Tracks.cast (.opened fun inner => .bind (plain none sort) fun _ =>
        .bind (plainAll none sort) fun _ => .bind (plain none sort) fun _ =>
        .bind (plainAll none sort) fun _ => plain none sort) (by simp [outerSteps, Kind.outerTasks])
        (by simp [innerSteps, Kind.innerTasks, stepsOf, termsAt])
    case forEach type name collection body =>
      obtain ⟨-, namedCollection, namedBody⟩ := sort
      have onceHere : ((place.ref :: body.toList.flatMap Term.refs).Nodup →
          ∀ ref ∈ body.toList.flatMap Term.refs, (declared ref ∨ ref ∈ [place.ref]) ↔
          declared ref) := fun once ref within =>
        or_iff_left fun here => (List.nodup_cons.1 once).1 (List.mem_singleton.1 here ▸ within)
      have bound : bindings [.node place (.forEach type name collection body)]
          = [.bind name place.ref] := rfl
      have announced (inner : ScopeId) (element : DataType) := (@Announces.declare inner name
        (.node place (.forEach type name collection body)) rfl .iterationVariable element).discard
      refine tracks_node (collection.toList.flatMap Term.refs ++ place.ref ::
        body.toList.flatMap Term.refs) rfl ?_ ?_
      · rw [resolveForm]
        refine Tracks.cast (.bind (one none namedCollection) fun _ => .afterQuiet .get fun model =>
          .opened fun inner => (announced inner _).follows (fun once _ =>
            (one none namedBody).congr fun ref within => (onceHere once ref within).symm)
            (by simp) (by simp) (by simp; exact none _ (ref_mem_refs _)))
          (by simp [outerSteps, Kind.outerTasks, stepsOf, termsAt])
          (by simp [innerSteps, Kind.innerTasks, stepsOf, termsAt, Kind.declaredName?, bound])
      · refine List.perm_middle.subperm.trans (List.Sublist.subperm ?_)
        simp [refs_node, parts]
    case int | str | bool | null =>
      refine tracks_node [] rfl ?_ (List.nil_subperm)
      rw [resolveForm]
      exact Tracks.quiet (.pure _)
    case invoke callee arguments =>
      refine tracks_node (callee.toList.flatMap Term.refs ++ arguments.flatMap Term.refs) rfl ?_
        (List.Sublist.subperm (by simp [refs_node, parts]))
      rw [resolveForm]
      exact Tracks.cast (.bind (plain none sort) fun _ => .afterQuiet .get fun model =>
          plainAll none sort) (by simp [outerSteps, Kind.outerTasks, stepsOf, termsAt])
        (by simp [innerSteps, Kind.innerTasks])
    case index receiver arguments =>
      refine tracks_node (receiver.toList.flatMap Term.refs ++ arguments.flatMap Term.refs) rfl ?_
        (List.Sublist.subperm (by simp [refs_node, parts]))
      rw [resolveForm]
      exact Tracks.cast (.bind (plain none sort) fun _ => plainAll none sort)
        (by simp [outerSteps, Kind.outerTasks, stepsOf, termsAt])
        (by simp [innerSteps, Kind.innerTasks])
    case ifStmt condition thenBranch elseBranch =>
      refine tracks_node
        (condition.toList.flatMap Term.refs ++ (thenBranch.toList.flatMap Term.refs ++
        elseBranch.toList.flatMap Term.refs)) rfl ?_
        (List.Sublist.subperm (by simp [refs_node, parts]))
      rw [resolveForm]
      exact Tracks.cast (.bind (plain none sort) fun _ =>
          .bind (plain none sort) fun _ => plain none sort)
        (by simp [outerSteps, Kind.outerTasks, stepsOf, termsAt])
        (by simp [innerSteps, Kind.innerTasks])
    case exprStmt child | returnStmt child | member child _ _ | argument _ child | unary
      _ child | paren child =>
      refine tracks_node (child.toList.flatMap Term.refs) rfl ?_
        (List.Sublist.subperm (by simp [refs_node, parts]))
      rw [resolveForm]
      exact Tracks.cast (plain none sort) (by simp [outerSteps, Kind.outerTasks, stepsOf, termsAt])
        (by simp [innerSteps, Kind.innerTasks])
    case whileLoop first second | binary _ first second | assign _ first second =>
      refine tracks_node (first.toList.flatMap Term.refs ++ second.toList.flatMap Term.refs) rfl ?_
        (List.Sublist.subperm (by simp [refs_node, parts]))
      rw [resolveForm]
      exact Tracks.cast (.bind (plain none sort) fun _ => plain none sort)
        (by simp [outerSteps, Kind.outerTasks, stepsOf, termsAt])
        (by simp [innerSteps, Kind.innerTasks])

/-- Before the walk the scope of the unit is open, and all nodes are pending. -/
theorem walking_blank {tree : Tree} {whole : Outline} (program : tree.IsProgram whole) :
    Walking (blank tree.size) [(rootScope, [])] (· ∈ whole.refs) (fun _ => False) [] where
  layered id outer inner found parent := by
    cases id with
    | zero => cases Option.some.inj found; cases parent
    | succ id => cases found
  reflects := List.forall_mem_singleton.2
    ⟨Nat.one_pos, fun _ member => absurd member List.not_mem_nil, fun _ => rfl⟩
  nested := List.pairwise_singleton _ _
  stored ref within := by
    have sized : (blank tree.size).facts.size = tree.size := Array.size_replicate
    rw [sized]
    obtain ⟨number, inside, same⟩ := program.stands.hasRef within
    exact ⟨number, inside, same⟩
  unreferred ref _ := by rw [symbolOf, factsOf_blank]; rfl
  declared ref _ := by rw [declaredSymbol, factsOf_blank]; simp [Facts.nothing]
  understood := List.forall_mem_nil _

end Model

open Term in
/-- In the model of a program every name refers to the symbol of the node that its environment
tells. -/
theorem Tree.IsProgram.understood_of_visit {tree : Tree} {whole : Outline}
    (program : tree.IsProgram whole)
    (sorts : whole.All HasSorts) (isUnit : whole.kind.sort = .unit) {visit : Visit}
    (visited : visit ∈ visits false whole []) : (Model.build tree).Understood visit := by
  rcases whole with ⟨place, form⟩
  cases form <;> cases isUnit
  rename_i members
  have isPart {member : Outline}
      (isMember : member ∈ members) : member ∈ parts (.unit members) := by simp [parts, isMember]
  have follows :
      Model.Tracks Model.rootScope (Term.node place (.unit members)).refs (fun _ => False)
      [.read false (.node place (.unit members))] []
      (Model.resolve Model.rootScope .unknown (.node place (.unit members))) := by
    refine Model.tracks_node (members.flatMap Term.refs) rfl ?_
      (List.Sublist.subperm (by simp [refs_node, parts]))
    rw [Model.resolveForm]
    refine Model.Tracks.cast
      (Model.tracks_statements (fun member isMember => (sorts.child (isPart isMember)).here)
      (fun member isMember => Model.reads_of_hasNames (sorts.child (isPart isMember)) ?_) fun _ _ =>
      id) (by simp [outerSteps, Kind.outerTasks, stepsOf, termsAt])
      (by simp [innerSteps, Kind.innerTasks])
    exact sorts.here member (isPart isMember)
  rw [program.build_eq]
  refine ((follows program.stands.once _ _ _ _ _ _ (Model.walking_blank program) fun ref within =>
    ⟨within, Iff.rfl⟩).understood visit ?_).1
  simpa using visited

end Refactory
