import Refactory.Proofs.Model.Unit
import Refactory.Proofs.Refactoring.Preservation
import Refactory.Proofs.Refactoring.Versions
import Refactory.Proofs.Tree.Confined

/-!
# Where refactorings change a program

A refactoring at a node works on the statement of the node, or on the loop that it converts
(`Context.site`). Whatever it does is confined to the node above: it gives this node other children,
and but for inlining temporaries, which takes statements out of a list, only the site is among the
children that it replaces (`Context.attempt_changesAt`). What is put in the place of the code of a
statement may lie deep in the statement or be found by climbing up from it; that it does not reach
out of the statement follows from where code stands in the programs that are reached
(`Reached.sheltered`).
-/
namespace Refactory

open Term

variable {term : Outline}

/-- A quantifier call is an expression, and so is its dual. -/
theorem Dualizes.isExpression {quantifier : Quantifier} {receiver : Option Outline} {new : Outline}
    (dualizes : Dualizes quantifier receiver term new) :
    term.kind.isExpression ∧ new.kind.isExpression := by
  obtain ⟨-, before, after, -⟩ := dualizes
  rw [before.form, after.form]
  exact ⟨rfl, rfl⟩

/-- An expression in parentheses is an expression. -/
theorem Wraps.isExpression {around : Outline} (wraps : Wraps term around)
    (isExpression : term.kind.isExpression) :
    around.kind.isExpression := by
  cases wraps with
  | bare => exact isExpression
  | paren form _ =>
    rw [form]
    rfl

/-- One ascends through parentheses. -/
theorem Wraps.ascends {around high : Outline} (wraps : Wraps term around)
    (isExpression : term.kind.isExpression)
    (ascends : Ascends around high) : Ascends term high := by
  induction wraps with
  | bare => exact ascends
  | paren form wraps ih =>
    exact ih
      (.step (wraps.isExpression isExpression) (by simp [Term.children, form, parts]) ascends)

/-- One ascends from a call to what is changed when it is negated. -/
theorem NegatesCall.ascends {target new : Outline} (negates : NegatesCall term target new)
    (isExpression : term.kind.isExpression) : Ascends term target := by
  cases negates with
  | remove wraps form =>
    exact wraps.ascends isExpression
      (.step (wraps.isExpression isExpression) (by simp [Term.children, form, parts])
      (.refl (by rw [form]; rfl)))
  | add place => exact .refl isExpression
  | wrap place outer => exact .refl isExpression

namespace Term

/-- What temporaries are introduced for, and what is left of it, are statements. -/
theorem Introduces.isStatement {temporaries : List Introduced} {call statement rest : Outline}
    (introduces : Introduces temporaries call statement rest) (once : statement.refs.Nodup)
    (isStatement : statement.kind.isStatement) :
    ∀ term ∈ temporaries.map (·.declaration) ++ [rest], term.kind.isStatement := by
  induction introduces with
  | done => simpa using isStatement
  | @step temporary others call next statement last isValue made first fresh _ ih =>
    have leads := (made.first.trans first).leads
    have left := ih (temporary.nodup_swap once leads.mem_subterms fresh) <| by
      rw [kind_swap_of_ne (leads.ref_ne once).symm,
        Kind.isStatement_of_skeleton (skeleton_mapChildren _ _)]
      exact isStatement
    intro term isTerm
    rcases List.mem_cons.1 isTerm with rfl | isTerm
    · rw [temporary.isDeclaration]
      rfl
    · exact left term isTerm

/-- Inlining temporaries whose uses are expressions leaves the code in statements. -/
theorem Inlines.sheltered {model : Model} {links : List Link} {first last : Outline}
    {later rest : List Outline} (inlines : Inlines (fun part => (model.symbolOf part.ref).isSome →
      part.kind.isExpression) links first later last rest)
    (symbols : ∀ link ∈ links, (model.symbolOf link.use).isSome)
    (once : ((first :: later).flatMap refs).Nodup)
    (sheltered : ∀ term ∈ first :: later, Sheltered term) :
    ∀ term ∈ last :: rest, Sheltered term := by
  induction inlines with
  | done => exact sheltered
  | @step links first consumer last value use later rest type declares _ leads isExpression _ ih =>
    have isExpression := isExpression (symbols _ (.head _))
    have onceRest := once.sublist (List.Sublist.flatMap (List.sublist_cons_self first _) refs)
    have onceConsumer :=
      onceRest.sublist (List.Sublist.flatMap (List.singleton_sublist.2 (.head later)) refs)
    rw [List.flatMap_singleton] at onceConsumer
    refine ih (fun link isLink => symbols link (.tail _ isLink))
      (declares.nodup_inline leads.mem_subterms once) fun term isTerm => ?_
    rcases List.mem_cons.1 isTerm with rfl | isTerm
    · refine (sheltered consumer (.tail _ (.head _))).swap onceConsumer leads.mem_subterms
        fun isSheltered => ?_
      rw [Kind.not_isExpression isSheltered.sorts] at isExpression
      cases isExpression
    · exact sheltered term (.tail _ (.tail _ isTerm))

end Term

/-- Temporaries are put in front of statements only. -/
theorem isStatement_of_canFollow {tree : Tree} (shows : tree.Shows term)
    (canFollow : tree.canFollowTemporaries term.ref = true) : term.kind.isStatement := by
  rw [← Kind.isStatement_of_skeleton shows.depicts.skeleton]
  rw [Tree.canFollowTemporaries] at canFollow
  cases isKind : tree.kind term.ref <;> rw [isKind] at canFollow <;> first | rfl | simp at canFollow

namespace Tree

variable {tree : Tree} {whole part : Outline} {ref : Ref}

/-- The statement of a node in a program whose code stands in statements is a statement or around
statements. -/
theorem IsProgram.exists_statementOf (program : tree.IsProgram whole) (sheltered : Sheltered whole)
    (member : ref ∈ whole.refs) :
    ∃ site ∈ whole.subterms, site.ref = tree.statementOf ref ∧
    (site.kind.isStatement ∨ site.kind.isFrame) := by
  obtain ⟨site, within, same⟩ := mem_refs.1 (program.statementOf_mem member)
  refine ⟨site, within, same, ?_⟩
  rw [statementOf] at same
  cases found : (tree.lineage ref).find? fun ref => (tree.kind ref).isStatement with
  | some statement =>
    rw [found] at same
    obtain rfl : site.ref = statement := same
    have isStatement := List.find?_some found
    rw [Kind.isStatement_of_skeleton (program.stands.shows within).depicts.skeleton] at isStatement
    exact .inl isStatement
  | none =>
    rw [found] at same
    obtain rfl : site.ref = ref := same
    rcases sheltered.subterm within with sheltered | ⟨statement, isPart, isStatement, inside⟩
    · exact sheltered.sorts
    · have missed := List.find?_eq_none.1 found _ (program.mem_lineage isPart inside)
      rw [Kind.isStatement_of_skeleton (program.stands.shows isPart).depicts.skeleton] at missed
      exact absurd isStatement missed

/-- All code stands in statements after statements came in the place of one. -/
theorem Becomes.sheltered {statement result : Outline} {new : List Outline}
    (becomes : Becomes whole statement new result)
    (once : whole.refs.Nodup) (within : statement ∈ whole.subterms) (sheltered : Sheltered whole)
    (each : ∀ term ∈ new, Sheltered term) : Sheltered result := by
  cases becomes with
  | @listed holder within held fits =>
    refine sheltered.swap once within fun isHolder =>
      isHolder.withChildren skeleton_splice fun _ children child isChild => ?_
    have isChild : child ∈ parts (splice statement.ref new holder.kind) := isChild
    rw [parts_splice fits] at isChild
    obtain ⟨old, isOld, isChild⟩ := List.mem_flatMap.1 isChild
    split at isChild
    · exact each child isChild
    · exact List.mem_singleton.1 isChild ▸ children old isOld
  | blocked place => exact sheltered.swap once within fun _ => .statement rfl

/-- A sorted program has all its code in statements. -/
theorem IsUnit.sheltered (unit : tree.IsUnit whole) : Sheltered whole := by
  have below {term : Outline} (inPlace : term.All InPlace)
      (sort : term.kind.sort ∈ [NodeSort.unit, .statement, .param, .type]) : Sheltered term := by
    induction term using Term.induction with
    | step place form ih =>
      have sorts := inPlace.here.sorts
      have each
          (slots : ∀ sorts ∈ form.childSorts, sorts ⊆ [NodeSort.unit, .statement, .param, .type]) :
          ∀ child ∈ Term.children (.node place form), Sheltered child := by
        intro child held
        refine ih child held (inPlace.child held) ?_
        obtain ⟨slot, isSlot, inSlot⟩ :=
          List.mem_flatMap.1 (show child ∈ form.slots.flatMap Slot.terms from held)
        obtain ⟨position, isPosition, rfl⟩ := List.mem_iff_get.1 isSlot
        have fits := sorts.get position.2 (sorts.length_eq ▸ position.2)
        exact slots _ (List.get_mem ..) (fits child inSlot)
      cases form <;> first
        | exact .statement rfl
        | (exact .frame rfl (each (by simp [Kind.childSorts])))
        | simp [Term.kind, Kind.sort] at sort
  exact below unit.inPlace (by rw [unit.isUnit]; simp)

/-- A change of a program is confined to what is above a site, of which it keeps the other children
or not, and leaves all code in statements. -/
structure ChangesAt (before after : Tree) (whole : Outline) (site : Ref)
    (others : Prop) : Prop where
  /-- The site is in the program. -/
  within : site ∈ whole.refs
  /-- All code is in statements. -/
  sheltered : ∃ changed, after.IsProgram changed ∧ Sheltered changed
  /-- The change is confined. -/
  confined : ∀ term ∈ whole.subterms, term.ref = site →
    ∀ holder ∈ whole.subterms, term ∈ holder.children →
    ∃ form, Confines before after whole holder (fun child => others ∧ child ≠ term) form

section

variable {before after : Tree} {site new : Outline} {others : Prop}

/-- What is changed at a site leaves the nodes outside of the node above, and that node where it
was. -/
theorem ChangesAt.preserves {site : Ref} (changes : ChangesAt before after whole site others)
    (program : before.IsProgram whole)
    (below : site ≠ before.root) :
    (∀ other ∈ before.attached, other ∉ before.descendants (before.parent site) →
      before.Preserves after other) ∧ (before.parent site ∈ after.attached ∧
        after.span (before.parent site) = before.span (before.parent site) ∧
        after.parent (before.parent site) = before.parent (before.parent site)) ∧
      (others → ∀ child ∈ before.children (before.parent site), child ≠ site →
        ∀ other ∈ before.descendants child, before.Preserves after other) := by
  obtain ⟨term, within, rfl⟩ := mem_refs.1 changes.within
  rcases program.parent_cases within with ⟨rfl, -⟩ | ⟨holder, isHolder, held, up⟩
  · exact absurd program.root below
  have standsHolder := program.stands.subterm isHolder
  obtain ⟨form, confines⟩ := changes.confined term within rfl holder isHolder held
  obtain ⟨attached, parent⟩ := confines.stays program isHolder (.inl rfl)
  rw [up, program.attached, standsHolder.descendants]
  refine ⟨fun other member outside => confines.preserves_outside program member outside,
    ⟨attached, confines.span program, parent⟩, fun kept child isChild apart other member => ?_⟩
  rw [standsHolder.shown.here.children] at isChild
  obtain ⟨old, isOld, rfl⟩ := List.mem_map.1 isChild
  rw [(standsHolder.subterm (child_mem_subterms isOld)).descendants] at member
  exact confines.preserves_below program isOld ⟨kept, fun same => apart (same ▸ rfl)⟩ member

/-- What comes in the place of a part of a site changes the program at the site. -/
theorem Places.changesAt (places : Places before after whole part new)
    (program : before.IsProgram whole)
    (sheltered : Sheltered whole) (within : site ∈ whole.subterms) (isPart : part ∈ site.subterms)
    (comes : Sheltered part → Sheltered new) : ChangesAt before after whole site.ref others where
  within := mem_refs.2 ⟨site, within, rfl⟩
  sheltered := ⟨_, places.program, sheltered.swap program.stands.once places.within comes⟩
  confined term isTerm same holder isHolder held := by
    obtain rfl := subterm_unique program.stands.once isTerm within same
    exact ⟨_, (places.confines program isHolder held isPart).mono fun _ _ kept => kept.2⟩

/-- What comes in the place of an expression to which one ascends from a part of a site changes the
program at the site. -/
theorem Places.changesAt_of_ascends (places : Places before after whole part new)
    (program : before.IsProgram whole)
    (sheltered : Sheltered whole) (within : site ∈ whole.subterms)
    (sorts : site.kind.isStatement ∨ site.kind.isFrame)
    {low : Outline} (inside : low ∈ site.subterms)
    (ascends : Ascends low part) : ChangesAt before after whole site.ref others := by
  refine places.changesAt program sheltered within
    (ascends.within program.stands within places.within (Kind.not_isExpression sorts) inside)
    fun isSheltered => ?_
  have isExpression := ascends.isExpression_high
  rw [Kind.not_isExpression isSheltered.sorts] at isExpression
  cases isExpression

/-- A change at a site of a program whose site was changed before. -/
theorem ChangesAt.after_swap {middle : Tree} (program : before.IsProgram whole)
    (within : site ∈ whole.subterms)
    (isPart : part ∈ site.subterms) (changed : middle.IsProgram (Term.swap part.ref new whole))
    (spares : Spares before middle whole part) (later : ChangesAt middle after
      (Term.swap part.ref new whole) (Term.swap part.ref new site).ref True) :
    ChangesAt before after whole site.ref True where
  within := mem_refs.2 ⟨site, within, rfl⟩
  sheltered := later.sheltered
  confined term isTerm same holder isHolder held := by
    have once := program.stands.once
    obtain rfl := subterm_unique once isTerm within same
    have confines := confines_of_swap program isHolder held isPart changed spares
    have swapped := confines.program.outline_root.symm.trans changed.outline_root
    have isChild : Term.swap part.ref new term ∈ Term.children
        (.node holder.note (mapChildren (Term.swap part.ref new) holder.kind) : Outline) := by
      rw [Term.children, Term.kind, parts_mapChildren]
      exact List.mem_map_of_mem held
    obtain ⟨form, confinesLater⟩ := later.confined _ (swap_mem_subterms once within isPart) rfl _
      (swapped ▸ confines.holder_mem program) isChild
    refine ⟨form, (confines.trans program (swapped ▸ confinesLater)).mono fun child isOld kept =>
      ⟨kept.2, trivial, fun isNew => ?_⟩⟩
    -- The other children were not in the site, so they are not in what it was changed into.
    have outside : child.ref ∉ term.refs := disjoint_of_nodup
      (program.stands.subterm isHolder).children.1.once isOld held kept.2 (ref_mem_refs child)
    rw [swap_within once within isPart] at changed
    exact not_mem_of_swap once changed.stands.once within
      (refs_subset (subterms_child isHolder isOld) (ref_mem_refs child)) outside
      (isNew ▸ ref_mem_refs child)

/-- Statements that come in the place of a site change the program at the site. -/
theorem Becomes.changesAt {statements : List Outline} {result : Outline}
    (becomes : Becomes whole site statements result) (program : before.IsProgram whole)
    (sheltered : Sheltered whole) (within : site ∈ whole.subterms)
    (changed : after.IsProgram result) (spares : Spares before after whole site)
    (each : ∀ term ∈ statements, Sheltered term) :
    ChangesAt before after whole site.ref True where
  within := mem_refs.2 ⟨site, within, rfl⟩
  sheltered := ⟨result, changed, becomes.sheltered program.stands.once within sheltered each⟩
  confined term isTerm same holder isHolder held := by
    obtain rfl := subterm_unique program.stands.once isTerm within same
    obtain ⟨form, confines⟩ := becomes.exists_confines program isHolder held changed spares
    exact ⟨form, confines.mono fun _ _ kept => kept.2⟩

end

end Tree

namespace Context

open Refactory.Tree

variable {context : Context} {whole : Outline} {ref : Ref}

/-- What is below the statement of a node is part of the site. -/
theorem mem_site {part site : Outline} (program : context.tree.IsProgram whole)
    (isPart : part ∈ whole.subterms) (within : site ∈ whole.subterms)
    (below : part.ref ∈ context.tree.descendants site.ref) : part ∈ site.subterms := by
  rw [(program.stands.subterm within).descendants] at below
  obtain ⟨found, inside, same⟩ := mem_refs.1 below
  exact subterm_unique program.stands.once (subterms_trans within inside) isPart same ▸ inside

section

variable (program : context.tree.IsProgram whole) (sheltered : Sheltered whole)
  (member : ref ∈ whole.refs)

include program sheltered member

theorem merge_changesAt {merging : Merging}
    (combines : merging.Combines) : Attempt.Gives (context.merge merging ref) (Offers fun result =>
      context.tree.ChangesAt result whole (context.tree.statementOf ref) True) := by
  refine (merge_places combines program member).mono fun offered offers action isOffered => ?_
  obtain ⟨call, isPart, outer, merged, below, ascends, places⟩ := offers action isOffered
  obtain ⟨site, within, same, sorts⟩ := program.exists_statementOf sheltered member
  rw [← same] at below ⊢
  exact places.changesAt_of_ascends program sheltered within sorts
    (mem_site program isPart within below) ascends

/-- What comes in the place of a call in the statement of a node changes the program at the
statement. -/
theorem changesAt_of_call {result : Tree} {call run : Outline}
    (below : call.ref ∈ context.tree.descendants (context.tree.statementOf ref))
    (isCall : ∃ access arguments, call.kind = .invoke access arguments)
    (places : context.tree.Places result whole call run) :
    context.tree.ChangesAt result whole (context.tree.statementOf ref) True := by
  obtain ⟨site, within, same, sorts⟩ := program.exists_statementOf sheltered member
  rw [← same] at below ⊢
  obtain ⟨access, arguments, form⟩ := isCall
  exact places.changesAt_of_ascends program sheltered within sorts
    (mem_site program places.within within below)
    (.refl (by rw [form]; rfl))

theorem splitFilter_changesAt : Attempt.Gives (context.splitFilter ref) (Offers fun result =>
      context.tree.ChangesAt result whole (context.tree.statementOf ref) True) := by
  refine (splitFilter_puts program member).mono fun offered offers action isOffered => ?_
  obtain ⟨call, run, below, isCall, places⟩ := offers action isOffered
  exact changesAt_of_call program sheltered member below isCall places

theorem splitProjection_changesAt : Attempt.Gives (context.splitProjection ref)
    (Offers fun result =>
      context.tree.ChangesAt result whole (context.tree.statementOf ref) True) := by
  refine (splitProjection_puts program member).mono fun offered offers action isOffered => ?_
  obtain ⟨call, run, below, isCall, places⟩ := offers action isOffered
  exact changesAt_of_call program sheltered member below isCall places

theorem forToForEach_changesAt : Attempt.Gives (context.forToForEach ref) (Offers fun result =>
    ∃ loop, context.convertedLoop? ref = some loop ∧
      context.tree.ChangesAt result whole loop.ref True) := by
  refine (forToForEach_places program member).mono fun offered offers action isOffered => ?_
  obtain ⟨loop, term, converted, found, isLoop, isStatement, places⟩ := offers action isOffered
  exact ⟨loop, found,
    isLoop ▸ places.changesAt program sheltered places.within (self_mem_subterms term) fun _ =>
    .statement isStatement⟩

theorem forEachToFor_changesAt : Attempt.Gives (context.forEachToFor ref) (Offers fun result =>
    ∃ loop, (context.tree.lineage ref).findSome? context.tree.elementLoop? = some loop ∧
      context.tree.ChangesAt result whole loop.ref True) := by
  refine (forEachToFor_puts program member).mono fun offered offers action isOffered => ?_
  obtain ⟨loop, term, within, collection, body, element, access, sizeMember, name, counter,
    changed, found, plans, isProgram, opened, target, declaration, converted, placed, opens, counts,
    isStatement, puts⟩ := offers action isOffered
  refine ⟨loop, found, plans.isLoop ▸ ?_⟩
  have places : context.tree.Places placed whole term converted :=
    ⟨within, counts.program, counts.spares⟩
  have first := @Places.changesAt whole term context.tree placed term converted True places program
    sheltered within
    (self_mem_subterms term) fun _ => .statement isStatement
  rcases puts with ⟨-, same, -⟩ | ⟨declaration, rfl, becomes, spares⟩
  · exact same ▸ first
  -- The declaration comes in front of the new loop.
  · have once := program.stands.once
    refine .after_swap program within (self_mem_subterms term) counts.program counts.spares ?_
    rw [swap_self]
    refine becomes.changesAt counts.program (sheltered.swap once within fun _ =>
      .statement isStatement) (mem_subterms_swap once within) isProgram spares ?_
    simp [Sheltered.statement, opens.isStatement, isStatement]

theorem invertQuantifier_changesAt : Attempt.Gives (context.invertQuantifier ref)
    (Offers fun result =>
      context.tree.ChangesAt result whole (context.tree.statementOf ref) True) := by
  refine (invertQuantifier_offers program member).mono fun offered offers action isOffered => ?_
  obtain ⟨call, receiver, term, middle, target, new, -, -, below, isTerm, ⟨dual, dualizes, rfl, -,
    negates⟩, changed, leaves, isChanged, places⟩ := offers action isOffered
  obtain ⟨site, within, same, sorts⟩ := program.exists_statementOf sheltered member
  rw [← same] at below ⊢
  have once := program.stands.once
  have inside := mem_site program isTerm within below
  obtain ⟨isExpression, isExpressionDual⟩ := dualizes.isExpression
  refine .after_swap program within inside isChanged
    (fun ref isOld outside _ => leaves ref isOld outside) ?_
  have apart : site.ref ≠ term.ref := fun here => by
    obtain rfl := subterm_unique once within isTerm here
    rw [Kind.not_isExpression sorts] at isExpression
    cases isExpression
  have skeleton : (Term.swap term.ref dual site).kind.skeleton = site.kind.skeleton := by
    rw [kind_swap_of_ne apart, skeleton_mapChildren]
  refine places.changesAt_of_ascends isChanged (sheltered.swap once isTerm fun isSheltered => ?_)
    (swap_mem_subterms once within inside) ?_
    (mem_subterms_swap (program.stands.subterm within).once inside)
    (negates.ascends isExpressionDual)
  · rw [Kind.not_isExpression isSheltered.sorts] at isExpression
    cases isExpression
  · rwa [Kind.isStatement_of_skeleton skeleton, Kind.isFrame_of_skeleton skeleton]

theorem unchainCalls_changesAt : Attempt.Gives (context.unchainCalls ref) (Offers fun result =>
      context.tree.ChangesAt result whole (context.tree.statementOf ref) True) := by
  refine (unchainCalls_puts program member).mono fun offered offers action isOffered => ?_
  obtain ⟨statement, _, _, _, _, _, unchains⟩ := offers action isOffered
  rw [← unchains.isSite]
  refine unchains.becomes.changesAt program sheltered unchains.within unchains.program
    unchains.spares fun new isNew => .statement ?_
  exact unchains.introduces.isStatement (program.stands.subterm unchains.within).once
    (isStatement_of_canFollow (program.stands.shows unchains.within) unchains.canFollow) new isNew

end

variable {tree : Tree} {settings : Settings}

/-- Inlining temporaries changes the list of statements above the site. -/
theorem chainCalls_changesAt (program : tree.IsProgram whole) (sheltered : Sheltered whole)
    (member : ref ∈ whole.refs) : Attempt.Gives ((ofTree tree settings).chainCalls ref)
    (Offers fun result => tree.ChangesAt result whole (tree.statementOf ref) False) := by
  let plain (part : Outline) : Prop :=
    ((Model.build tree).symbolOf part.ref).isSome → part.kind.isExpression
  have isPlain : ∀ part ∈ whole.subterms, plain part := by
    intro part within refers
    obtain ⟨other, inside, same, name, isName⟩ := program.exists_ident_of_symbolOf refers
    obtain rfl := subterm_unique program.stands.once inside within same
    rw [isName]
    rfl
  refine (@chainCalls_chains (ofTree tree settings) whole plain ref program member
    (fun part within type declarators form => isPlain type (subterms_child within (by
      simp [Term.children, form, parts]))) fun part within _ => isPlain part within).mono
    fun offered offers action isOffered => ?_
  obtain ⟨position, place, make, links, front, later, rest, first, last, chains⟩ :=
    offers action isOffered
  have once := program.stands.once
  have standsList := program.stands.subterm chains.within
  have standsAll := standsList.children.1
  rw [chains.isList.children_eq] at standsAll
  have each (isFrame : ∀ child ∈ front ++ first :: later, Sheltered child) :
      ∀ child ∈ front ++ last :: rest, Sheltered child := by
    have left := chains.inlines.sheltered
      (fun link isLink => (exists_of_mem_linksAt (chains.isLinks ▸ isLink)).1)
      (StandsAll.append_iff.1 standsAll).2.1.once fun term isTerm =>
      isFrame term (List.mem_append_right _ isTerm)
    intro child isChild
    exact (List.mem_append.1 isChild).elim
      (fun inFront => isFrame child (List.mem_append_left _ inFront)) (left child)
  refine ⟨program.statementOf_mem member, ⟨_, chains.program, sheltered.swap once chains.within
    fun isList => isList.withChildren ?_ ?_⟩, fun term isTerm same holder within held => ?_⟩
  · rcases chains.isList with rfl | rfl <;> rfl
  · rw [chains.isList.children_eq, chains.isList.children_eq]
    exact fun _ children => each children
  · -- The list is the node above the site.
    have isHolder : holder.ref = place.ref :=
      (program.stands.parent within held).symm.trans (same ▸ chains.holds)
    obtain rfl := subterm_unique once within chains.within isHolder
    exact ⟨_, within, chains.program, fun _ _ kept => kept.1.elim, chains.spares, fun _ _ kept =>
      kept.1.elim⟩

/-- What a refactoring at a node works on: the loop that it converts, or the statement of the
node. -/
def site (context : Context) (refactoring : Refactoring) (ref : Ref) : Ref :=
  match refactoring with
  | .forToForEach => ((context.convertedLoop? ref).map (·.ref)).getD (context.tree.statementOf ref)
  | .forEachToFor =>
    (((context.tree.lineage ref).findSome? context.tree.elementLoop?).map (·.ref)).getD
    (context.tree.statementOf ref)
  | _ => context.tree.statementOf ref

/-- Every refactoring changes a program at its site. -/
theorem attempt_changesAt (program : tree.IsProgram whole)
    (sheltered : Sheltered whole) (member : ref ∈ whole.refs) (refactoring : Refactoring) :
    Attempt.Gives ((ofTree tree settings).attempt refactoring ref) (Offers fun result =>
      tree.ChangesAt result whole ((ofTree tree settings).site refactoring ref)
        (refactoring ≠ .chainCalls)) := by
  let context := ofTree tree settings
  have others {result : Tree} {site : Ref} (changes : tree.ChangesAt result whole site True)
      (other : refactoring ≠ .chainCalls) :
      tree.ChangesAt result whole site (refactoring ≠ .chainCalls) := by
    simpa [other] using changes
  have atStatement {attempt : Attempt (Option Action)}
      (gives : Attempt.Gives attempt (Offers fun result =>
        tree.ChangesAt result whole (tree.statementOf ref) True))
          (other : refactoring ≠ .chainCalls) :
      Attempt.Gives attempt (Offers fun result =>
        tree.ChangesAt result whole (tree.statementOf ref) (refactoring ≠ .chainCalls)) :=
    gives.mono fun _ offers action isOffered => others (offers action isOffered) other
  cases refactoring with
  | mergeWhere =>
    exact atStatement (@merge_changesAt context whole ref program sheltered member
      _ Merging.filters_combines) (by simp)
  | splitWhere =>
    exact atStatement (@splitFilter_changesAt context whole ref program sheltered member) (by simp)
  | mergeSelect =>
    exact atStatement (@merge_changesAt context whole ref program sheltered member
      _ Merging.projections_combines) (by simp)
  | splitSelect =>
    exact atStatement (@splitProjection_changesAt context whole ref program sheltered member)
      (by simp)
  | invertQuantifier =>
    exact atStatement (@invertQuantifier_changesAt context whole ref program sheltered member)
      (by simp)
  | forToForEach =>
    refine (@forToForEach_changesAt context whole ref program sheltered member).mono
      fun offered offers action isOffered => ?_
    obtain ⟨loop, found, changes⟩ := offers action isOffered
    rw [site, found]
    exact others changes (by simp)
  | forEachToFor =>
    refine (@forEachToFor_changesAt context whole ref program sheltered member).mono
      fun offered offers action isOffered => ?_
    obtain ⟨loop, found, changes⟩ := offers action isOffered
    rw [site, found]
    exact others changes (by simp)
  | chainCalls =>
    refine (chainCalls_changesAt program sheltered member).mono
      fun offered offers action isOffered => ?_
    rw [eq_false fun other : Refactoring.chainCalls ≠ .chainCalls => other rfl]
    exact offers action isOffered
  | unchainCalls =>
    exact atStatement (@unchainCalls_changesAt context whole ref program sheltered member) (by simp)

end Context

/-- All code stands in statements in all trees that are reached. -/
theorem Reached.sheltered {tree : Tree}
    (reached : Reached tree) : ∃ whole, tree.IsProgram whole ∧ Sheltered whole := by
  induction reached with
  | parse parsed =>
    obtain ⟨whole, unit⟩ :=
      (Tree.isSorted_of_parse parsed).exists_isUnit (Tree.wellFormed_of_parse parsed)
    exact ⟨whole, unit.toIsProgram, unit.sheltered⟩
  | @refactor tree settings refactoring ref action _ member offered ih =>
    obtain ⟨whole, program, sheltered⟩ := ih
    rw [program.attached] at member
    exact (Context.of_offered
      (Context.attempt_changesAt program sheltered member refactoring).yields offered).sheltered

open Refactory.Tree in
/-- A refactoring of a tree that is reached, which is offered at a node, is one of this version of
the tree, and in its result it leaves everything outside of the node above its site what it was, and
this node where it was. But for inlining temporaries, it also leaves everything below the other
children of this node what it was. -/
theorem Reached.refactoring_stays_at_site {tree : Tree} {settings : Settings}
    {refactoring : Refactoring} {ref : Ref}
    {action : Action} (reached : Reached tree) (member : ref ∈ tree.attached)
    (offered : (Context.ofTree tree settings).offered? refactoring ref = .ok (some action)) :
    let site := (Context.ofTree tree settings).site refactoring ref
    let above := tree.parent site
    action.base = tree.version ∧ site ∈ tree.attached ∧ (site ≠ tree.root →
      (∀ other ∈ tree.attached, other ∉ tree.descendants above →
      tree.Preserves action.result other) ∧
      (above ∈ action.result.attached ∧ action.result.span above = tree.span above ∧
        action.result.parent above = tree.parent above) ∧
      (refactoring ≠ .chainCalls → ∀ child ∈ tree.children above, child ≠ site →
        ∀ other ∈ tree.descendants child, tree.Preserves action.result other)) := by
  obtain ⟨whole, program, sheltered⟩ := reached.sheltered
  have changes := Context.of_offered
    (Context.attempt_changesAt program sheltered (program.attached ▸ member) refactoring).yields
    offered
  refine ⟨(@Context.offered_renews
    (.ofTree tree settings) program.stored.listsStored _ _ _ offered).1,
    program.attached ▸ changes.within, fun below => changes.preserves program below⟩

open Refactory.Tree in
/-- Inverting a quantifier leaves the call in the statement before what it was. -/
theorem inverting_preserves_statement_before : ∃ tree action,
    Tree.parse 0 "F(); var q = xs.All(x => p);" = .ok tree ∧
      (Context.ofTree tree {}).offered? .invertQuantifier (some 11) = .ok (some action) ∧
      (Context.ofTree tree {}).site .invertQuantifier (some 11) = some 12 ∧
      tree.kind (some 1) = .invoke (some 0) .empty ∧ tree.Preserves action.result (some 1) := by
  have facts : (Tree.parse 0 "F(); var q = xs.All(x => p);").toOption.any (fun tree =>
      some 11 ∈ tree.attached && (Context.ofTree tree {}).site .invertQuantifier (some 11)
        = some 12 && some 12 ≠ tree.root && some 2 ∈ tree.children (tree.parent (some 12)) && some 1
        ∈ tree.descendants (some 2) && tree.kind (some 1) = .invoke (some 0) .empty &&
        ((Context.ofTree tree {}).offered? .invertQuantifier (some 11)).toOption.any Option.isSome)
        = true := by
    decide +kernel
  obtain ⟨tree, parsed, facts⟩ := exists_of_any facts
  simp only [Bool.and_eq_true, decide_eq_true_eq, Option.any_eq_true] at facts
  obtain ⟨⟨⟨⟨⟨⟨member, site⟩, below⟩, isChild⟩, inside⟩, isKind⟩, offered, isOffered, isAction⟩ :=
    facts
  obtain ⟨action, rfl⟩ := Option.isSome_iff_exists.1 isAction
  replace isOffered := Context.eq_ok_of_toOption isOffered
  obtain ⟨-, -, stays⟩ := Reached.refactoring_stays_at_site (.parse parsed) member isOffered
  rw [site] at stays
  exact ⟨tree, action, parsed, isOffered, site, isKind,
    (stays below).2.2 (by simp) _ isChild (by simp) _ inside⟩

end Refactory
