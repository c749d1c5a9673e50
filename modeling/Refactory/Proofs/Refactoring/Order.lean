import Refactory.Proofs.Model.References
import Refactory.Proofs.Refactoring.Preservation
import Refactory.Proofs.Refactoring.Types

/-!
# Chains keep the order of effects

A temporary is declared directly before the statement that its value leads. Whether the value is
evaluated in its declaration or in the place of its use, the same effects come in the same order,
and the same members are accessed (`Term.Inlines.sameEvaluation`, `Term.Introduces.sameEvaluation`).
-/
namespace Refactory

namespace Term

/-- Nothing in a term has an effect or accesses a member. -/
structure Silent (term : Outline) : Prop where
  /-- There are no effects. -/
  effects : term.effects = []
  /-- There are no member accesses. -/
  accesses : term.accesses = []

/-- Some terms are evaluated like others: the effects are the same in the same order, and the same
members are accessed. -/
structure SameEvaluation (before after : List Outline) : Prop where
  /-- The effects are the same in the same order. -/
  effects : after.flatMap Term.effects = before.flatMap Term.effects
  /-- The member accesses are the same, in some order. -/
  accesses : (after.flatMap Term.accesses).Perm (before.flatMap Term.accesses)

namespace SameEvaluation

variable {before middle after front back : List Outline}

theorem refl (terms : List Outline) : SameEvaluation terms terms := ⟨rfl, .refl _⟩

theorem symm (same : SameEvaluation before after) : SameEvaluation after before :=
  ⟨same.effects.symm, same.accesses.symm⟩

theorem trans (first : SameEvaluation before middle) (second : SameEvaluation middle after) :
    SameEvaluation before after :=
  ⟨second.effects.trans first.effects, second.accesses.trans first.accesses⟩

/-- Terms are evaluated alike between the same others. -/
theorem between (same : SameEvaluation before after) (front back : List Outline) :
    SameEvaluation (front ++ before ++ back) (front ++ after ++ back) where
  effects := by simp [same.effects]
  accesses := by
    simp only [List.flatMap_append]
    exact (same.accesses.append_left _).append_right _

/-- A node is evaluated like another one of its sort whose children are evaluated alike. -/
theorem node {place : Place} {form form' : Form Place}
    (same : SameEvaluation (parts form) (parts form')) (skeleton : form'.skeleton = form.skeleton) :
    SameEvaluation [.node place form] [.node place form'] where
  effects := by
    simp only [List.flatMap_singleton, effects_node, same.effects]
    rw [← Kind.isEffect_skeleton form', skeleton, Kind.isEffect_skeleton]
  accesses := by
    simp only [List.flatMap_singleton, accesses_node]
    rw [← Kind.access?_skeleton form', skeleton, Kind.access?_skeleton]
    exact same.accesses.append_right _

/-- A term is evaluated alike when a part of it is. -/
theorem swap {whole part new : Outline} (same : SameEvaluation [part] [new])
    (once : whole.refs.Nodup)
    (within : part ∈ whole.subterms) : SameEvaluation [whole] [Term.swap part.ref new whole] where
  effects := by
    obtain ⟨before, after, old, swapped⟩ := Term.effects_swap once within new
    have inner := same.effects
    simp only [List.flatMap_singleton] at inner ⊢
    rw [old, swapped, inner]
  accesses := by
    obtain ⟨before, after, old, swapped⟩ := Term.accesses_swap once within new
    have inner := same.accesses
    simp only [List.flatMap_singleton] at inner ⊢
    rw [old, swapped]
    exact (inner.append_right _).append_left _

end SameEvaluation

section

variable {plain : Outline → Prop} {type : Option Outline} {value statement first last : Outline}
  {links : List Link} {later rest : List Outline}

/-- A term whose parts are no effects and access nothing is silent. -/
theorem silent_of_subterms {term : Outline}
    (quiet : ∀ part ∈ term.subterms, part.kind.isEffect = false ∧ part.kind.access? = none) :
    Silent term where
  effects := List.eq_nil_iff_forall_not_mem.2 fun ref member => by
    obtain ⟨part, within, isEffect, -⟩ := mem_effects.1 member
    simp [quiet part within] at isEffect
  accesses := List.eq_nil_iff_forall_not_mem.2 fun access member => by
    obtain ⟨part, within, -, isAccess⟩ := mem_accesses.1 member
    simp [quiet part within] at isAccess

/-- A node without children is silent if it is no effect and accesses nothing itself. -/
theorem silent_of_leaf {term : Outline} (leaf : term.children = [])
    (noEffect : term.kind.isEffect = false)
    (noAccess : term.kind.access? = none) : Silent term := by
  refine silent_of_subterms fun part within => ?_
  obtain rfl : part = term := by simpa [subterms_eq term, leaf] using within
  exact ⟨noEffect, noAccess⟩

/-- A name is silent. -/
theorem silent_of_ident {term : Outline} {name : String} (isName : term.kind = .ident name) :
    Silent term :=
  silent_of_leaf (by rw [Term.children, isName]; rfl) (by rw [isName]; rfl) (by rw [isName]; rfl)

/-- A type without arguments is silent. -/
theorem silent_of_typeRef {term : Outline} {name : String} {rank : Nat}
    (isType : term.kind = .typeRef name [] rank) :
    Silent term :=
  silent_of_leaf (by rw [Term.children, isType]; rfl) (by rw [isType]; rfl) (by rw [isType]; rfl)

/-- A declaration is evaluated like the declared value. -/
theorem Declares.sameEvaluation (declares : Declares type value statement)
    (silent : ∀ part ∈ type, Silent part) :
    SameEvaluation [value] [statement] := by
  obtain ⟨declarator, name, form, formDeclarator⟩ := declares
  rcases statement with ⟨place, _⟩
  rcases declarator with ⟨declaratorPlace, _⟩
  obtain rfl := form
  obtain rfl := formDeclarator
  cases type with
  | none =>
    refine ⟨?_, .of_eq ?_⟩
    · simp [effects_node, parts, Kind.isEffect]
    · simp [accesses_node, parts, Kind.access?]
  | some type =>
    obtain ⟨noEffects, noAccesses⟩ := silent type rfl
    refine ⟨?_, .of_eq ?_⟩
    · simp [effects_node, parts, Kind.isEffect, noEffects]
    · simp [accesses_node, parts, Kind.access?, noAccesses]

/-- Another part that leads a statement is evaluated in its place as before the statement, where
there was only something silent. -/
theorem Leads.sameEvaluation {use : Outline} (leads : Leads use statement) (silent : Silent use)
    (once : statement.refs.Nodup) (new : Outline) :
    SameEvaluation [new, statement] [Term.swap use.ref new statement] where
  effects := by
    obtain ⟨rest, old, swapped⟩ := leads.effects_swap once
    simp [old, swapped new, silent.effects]
  accesses := by
    obtain ⟨before, after, old, swapped⟩ := Term.accesses_swap once leads.mem_subterms new
    simp only [List.flatMap_cons, List.flatMap_nil, List.append_nil, old, swapped, silent.accesses,
      List.nil_append]
    exact List.perm_append_comm_assoc _ _ _

/-- What leads a statement is evaluated in front of it as in its place, if something silent is left
there. -/
theorem Leads.sameEvaluation_silent {name : Outline} (leads : Leads value statement)
    (silent : Silent name) (once : statement.refs.Nodup) :
    SameEvaluation [statement] [value, Term.swap value.ref name statement] where
  effects := by
    obtain ⟨rest, old, swapped⟩ := leads.effects_swap once
    simp [old, swapped name, silent.effects]
  accesses := by
    obtain ⟨before, after, old, swapped⟩ := Term.accesses_swap once leads.mem_subterms name
    simp only [List.flatMap_cons, List.flatMap_nil, List.append_nil, old, swapped, silent.accesses,
      List.nil_append]
    exact List.perm_append_comm_assoc _ _ _

/-- Statements in which temporaries are inlined are evaluated like the ones before. -/
theorem Inlines.sameEvaluation (inlines : Inlines Silent links first later last rest)
    (once : ((first :: later).flatMap refs).Nodup) :
    SameEvaluation (first :: later) (last :: rest) := by
  induction inlines with
  | done => exact .refl _
  | @step links first consumer last value use later rest type declares silentType leads
    silentUse _ ih =>
    have onceOthers := once.sublist (List.Sublist.flatMap (List.sublist_cons_self first _) refs)
    have onceConsumer :=
      onceOthers.sublist (List.Sublist.flatMap (List.singleton_sublist.2 (.head later)) refs)
    rw [List.flatMap_singleton] at onceConsumer
    -- The declaration is evaluated like the value, which is evaluated in the place of the use as
    -- well.
    have declared := (declares.sameEvaluation silentType).between [] (consumer :: later)
    have moved := (leads.sameEvaluation silentUse onceConsumer value).between [] later
    exact (declared.symm.trans moved).trans (ih (declares.nodup_inline leads.mem_subterms once))

/-- Declarations of temporaries and the rest of the statement are evaluated like the statement
before. -/
theorem Introduces.sameEvaluation {temporaries : List Introduced} {call : Outline}
    (introduces : Introduces temporaries call statement last) (once : statement.refs.Nodup) :
    SameEvaluation [statement] (temporaries.map (·.declaration) ++ [last]) := by
  induction introduces with
  | done => exact .refl _
  | @step temporary others _ next statement last isValue made first fresh _ ih =>
    subst isValue
    have leads := (made.first.trans first).leads
    have silentType : ∀ part ∈ some temporary.type, Silent part := by
      rintro part ⟨rfl⟩
      exact silent_of_typeRef temporary.isType
    have onceRest := temporary.nodup_swap once leads.mem_subterms fresh
    -- The value is evaluated in front of the rest, and like its declaration.
    have moved := leads.sameEvaluation_silent (silent_of_ident temporary.isUse) once
    have declared := (temporary.declares.sameEvaluation silentType).between []
      [swap temporary.value.ref temporary.use statement]
    have others := (ih onceRest).between [temporary.declaration] []
    rw [List.append_nil, List.append_nil] at others
    exact (moved.trans declared).trans others

end

end Term

namespace Tree

open Term

/-- A program is evaluated alike when a statement becomes some statements that are evaluated like
it. -/
theorem Becomes.sameEvaluation {whole statement term : Outline} {new : List Outline}
    (becomes : Becomes whole statement new term) (once : whole.refs.Nodup)
    (within : statement ∈ whole.subterms)
    (same : SameEvaluation [statement] new) : SameEvaluation [whole] [term] := by
  cases becomes with
  | @listed holder inside held fits =>
    obtain ⟨place, form⟩ := holder
    obtain ⟨front, back, split⟩ := List.append_of_mem held
    have onceHolder := once.sublist (refs_sublist inside)
    have others : ∀ other ∈ front ++ back, other.ref ≠ statement.ref := by
      intro other member sameRef
      have roots :=
        (List.nodup_cons.1 (refs_node place form ▸ onceHolder)).2.sublist (roots_sublist _)
      rw [show parts form = _ from split, List.map_append, List.map_cons, List.nodup_middle,
        ← List.map_append] at roots
      exact (List.nodup_cons.1 roots).1 (sameRef ▸ List.mem_map_of_mem member)
    have spliced := parts_splice_child fits split others
    refine SameEvaluation.swap (.node ?_ skeleton_splice) once inside
    rw [spliced, show parts form = _ from split]
    simpa using same.between front back
  | blocked place =>
    refine SameEvaluation.swap (same.trans ?_) once within
    exact ⟨by simp [effects_node, parts,
      Kind.isEffect], .of_eq (by simp [accesses_node, parts, Kind.access?])⟩

end Tree

namespace Context

open Term Refactory.Tree

/-- Inlining temporaries keeps what is evaluated, if the types and uses of temporaries are
silent. -/
theorem ChainsCalls.sameEvaluation {whole term : Outline} (chains : ChainsCalls Silent whole term)
    (once : whole.refs.Nodup) : SameEvaluation [whole] [term] := by
  cases chains with
  | @intro place make links front later rest first last isList within inlines =>
    have onceList := once.sublist (refs_sublist within)
    rw [refs_node, isList.parts_eq, List.nodup_cons, List.flatMap_append,
      List.nodup_append'] at onceList
    refine SameEvaluation.swap (.node ?_ ?_) once within
    · rw [isList.parts_eq, isList.parts_eq]
      simpa using (inlines.sameEvaluation onceList.2.2.1).between front []
    · rcases isList with rfl | rfl <;> rfl

/-- Introducing temporaries keeps what is evaluated. -/
theorem UnchainsCalls.sameEvaluation {whole term : Outline} (unchains : UnchainsCalls whole term)
    (once : whole.refs.Nodup) : SameEvaluation [whole] [term] := by
  cases unchains with
  | intro within introduces becomes =>
    exact becomes.sameEvaluation once within
      (introduces.sameEvaluation (once.sublist (refs_sublist within)))

end Context

namespace Tree

open Term

section

variable {tree : Tree} {whole type : Outline}

/-- A type is silent: there is nothing but types in it. -/
theorem silent_of_isType (formed : tree.TypesFormed) (shown : type.All tree.Shows)
    (isType : tree.IsType type.ref) :
    Silent type := by
  suffices types :
      ∀ part ∈ type.subterms, part.kind.isType from silent_of_subterms fun part within => by
    have isType := types part within
    rcases part with ⟨place, form⟩
    cases form <;> first | exact ⟨rfl, rfl⟩ | cases isType
  induction type using Term.induction with
  | step place form ih =>
    intro part within
    obtain ⟨name, range, rank, isKind⟩ := isType.exists_kind
    have fits := formed place.ref
    have depicts := shown.here.depicts
    rw [show tree.kind place.ref = _ from isKind] at fits
    rw [isKind] at depicts
    obtain ⟨arguments, rfl, entries⟩ := depicts.typeRef
    rcases List.mem_cons.1 (subterms_node place _ ▸ within) with rfl | below
    · rfl
    · obtain ⟨child, isChild, inside⟩ := List.mem_flatMap.1 below
      refine ih child isChild (shown.child isChild) (fits.2 child.ref ?_) part inside
      rw [entries]
      exact List.mem_map_of_mem (by simpa [parts] using isChild)

/-- The types of declarations in a program are silent where the types are formed. -/
theorem IsProgram.silent_of_localDecl (program : tree.IsProgram whole) (formed : tree.TypesFormed)
    {statement : Outline}
    {declarators : List Outline} (within : statement ∈ whole.subterms)
    (isDecl : statement.kind = .localDecl (some type) declarators) : Silent type := by
  have shown := (program.stands.subterm within).shown
  have isChild : type ∈ statement.children := by simp [Term.children, isDecl, parts]
  have shownType := shown.child isChild
  obtain ⟨range, isKind, -⟩ := (isDecl ▸ shown.here.depicts).of_localDecl
  have fits := formed statement.ref
  rw [isKind] at fits
  exact silent_of_isType formed shownType (fits shownType.here.hasRef.ne_none)

end

/-- A tree is evaluated like another: the effects are at the same nodes and in the same order, and
the same nodes access the same members in the same way. -/
structure SameEvaluation (before after : Tree) : Prop where
  /-- The effects are the same in the same order. -/
  effects : after.effectOrder = before.effectOrder
  /-- The member accesses are the same. -/
  accesses : ∀ ref name conditional, after.Accesses ref name conditional ↔
    before.Accesses ref name conditional

/-- Programs are evaluated like their terms. -/
theorem IsProgram.sameEvaluation {before after : Tree}
    {whole term : Outline} (program : before.IsProgram whole) (isProgram : after.IsProgram term)
    (same : Term.SameEvaluation [whole] [term]) : SameEvaluation before after where
  effects := by
    rw [isProgram.effectOrder, program.effectOrder]
    simpa using same.effects
  accesses ref name conditional := by
    rw [isProgram.accesses_iff, program.accesses_iff]
    have same := same.accesses
    rw [List.flatMap_singleton, List.flatMap_singleton] at same
    exact same.mem_iff

end Tree

/-- The types of all trees that are reached are formed. -/
theorem Reached.typesFormed {tree : Tree} (reached : Reached tree) : tree.TypesFormed := by
  induction reached with
  | parse parsed => exact Tree.typesFormed_of_parse parsed
  | @refactor tree settings refactoring ref action before member offered ih =>
    obtain ⟨whole, program⟩ := Tree.wellFormed_iff.1 before.wellFormed
    refine Context.of_offered
      (Context.attempt_typesFormed refactoring ih (fun ref refers => ?_) ref) offered
    obtain ⟨part, within, rfl, name, isName⟩ := program.exists_ident_of_symbolOf refers
    have shows := program.stands.shows within
    refine ⟨shows.hasRef, fun isType => ?_⟩
    have isType := shows.isType_iff.1 isType
    rw [isName] at isType
    cases isType

namespace Context

open Term Refactory.Tree

/-- Inlining temporaries of a program in which the types are formed keeps what is evaluated, and so
does introducing them. -/
theorem sameEvaluation_of_offered {tree : Tree} {settings : Settings} {refactoring : Refactoring}
    {ref : Ref} {action : Action} (wellFormed : tree.WellFormed) (formed : tree.TypesFormed)
    (member : ref ∈ tree.attached)
    (chains : refactoring = .chainCalls ∨ refactoring = .unchainCalls)
    (offered : (ofTree tree settings).offered? refactoring ref = .ok (some action)) :
    Tree.SameEvaluation tree action.result := by
  obtain ⟨whole, program⟩ := wellFormed_iff.1 wellFormed
  rw [program.attached] at member
  have once := program.stands.once
  rcases chains with rfl | rfl
  · have offers := @chainCalls_offers (ofTree tree settings) _ Silent _ program member
      (fun statement within type declarators => program.silent_of_localDecl formed within)
      fun part within refers => by
        obtain ⟨other, isPart, same, name, isName⟩ := program.exists_ident_of_symbolOf refers
        exact silent_of_ident (subterm_unique once isPart within same ▸ isName)
    have yields : Attempt.Yields ((ofTree tree settings).attempt .chainCalls ref) _ := offers.yields
    obtain ⟨term, isProgram, chained⟩ := of_offered yields offered
    exact program.sameEvaluation isProgram (chained.sameEvaluation once)
  · have offers := @unchainCalls_offers (ofTree tree settings) _ _ program member
    have yields : Attempt.Yields ((ofTree tree settings).attempt .unchainCalls ref) _ :=
      offers.yields
    obtain ⟨term, isProgram, unchained⟩ := of_offered yields offered
    exact program.sameEvaluation isProgram (unchained.sameEvaluation once)

end Context

/-- Inlining temporaries of a program in which the types are formed keeps the order of its effects
and the members it accesses, and so does introducing temporaries. All trees that are reached are
such programs. -/
theorem chaining_keeps_evaluation :
    (∀ tree settings refactoring ref action, tree.WellFormed → tree.TypesFormed →
      ref ∈ tree.attached → refactoring = .chainCalls ∨ refactoring = .unchainCalls →
      (Context.ofTree tree settings).offered? refactoring ref = .ok (some action) →
      Tree.SameEvaluation tree action.result) ∧
    ∀ tree settings refactoring ref action, Reached tree → ref ∈ tree.attached →
      refactoring = .chainCalls ∨ refactoring = .unchainCalls →
      (Context.ofTree tree settings).offered? refactoring ref = .ok (some action) →
      Tree.SameEvaluation tree action.result := by
  refine ⟨fun tree settings refactoring ref action => Context.sameEvaluation_of_offered, ?_⟩
  intro tree settings refactoring ref action reached
  exact Context.sameEvaluation_of_offered reached.wellFormed reached.typesFormed

/-- Inlining a temporary into a call that has another effect in its argument. -/
theorem inlining_keeps_evaluation : ∃ tree action,
    Tree.parse 0 "var a = x.F(); var b = a.G(y.H());" = .ok tree ∧
      (Context.ofTree tree {}).offered? .chainCalls (some 5) = .ok (some action) ∧
      tree.effectOrder.length = 3 ∧ Tree.SameEvaluation tree action.result := by
  have offers : ((Tree.parse 0 "var a = x.F(); var b = a.G(y.H());").toOption.any fun tree =>
      (some 5 ∈ tree.attached && tree.effectOrder.length = 3) &&
        ((Context.ofTree tree {}).offered? .chainCalls (some 5)).toOption.any (·.isSome))
        = true := by
    decide +kernel
  obtain ⟨tree, parsed, offers⟩ := (Option.any_eq_true _ _).1 offers
  obtain ⟨inside, offers⟩ := Bool.and_eq_true_iff.1 offers
  obtain ⟨member, effects⟩ := Bool.and_eq_true_iff.1 inside
  obtain ⟨offered, isOffered, some⟩ := (Option.any_eq_true _ _).1 offers
  obtain ⟨action, rfl⟩ := Option.isSome_iff_exists.1 some
  replace parsed := Context.eq_ok_of_toOption parsed
  replace isOffered := Context.eq_ok_of_toOption isOffered
  exact ⟨tree, action, parsed, isOffered, of_decide_eq_true effects, chaining_keeps_evaluation.2
    tree _ _ _ action (.parse parsed) (of_decide_eq_true member) (.inl rfl) isOffered⟩

end Refactory
