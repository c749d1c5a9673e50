import Refactory.Proofs.Refactoring.Sites
import Refactory.Proofs.Tree.Exchange

/-!
# Refactorings and grades

What a refactoring offers is as a grade asks where the program is. Here this is shown of the two
that put temporaries in for a chain of calls and take them out again (`Context.chainCalls_upholds`,
`Context.unchainCalls_upholds`). Statements that come into a list serve there one by one
(`Tree.IsListForm.supplants`), and a statement that stands alone becomes a block
(`Tree.Becomes.upholds`). The names that are made up are names as the grammar has them if the stems
of the ladders are (`NameScope.allows_pick`).
-/
namespace Refactory

open Term Shape Refactory.Tree

namespace Tree

section

variable {grade : Grade} {whole statement result : Outline} {make : List Outline → Form Place}
  {place : Place} {olds news new : List Outline}

/-- Other statements may come into a list of statements. -/
theorem IsListForm.supplants (isList : IsListForm make)
    (upholds : Upholds grade (Term.node place (make olds)).shape)
    (each : ∀ term ∈ news, Upholds grade term.shape ∧
      (IsStep grade term.shape ∨ ∃ old ∈ olds, Serves grade term.shape old.shape)) :
    Supplants grade (Term.node place (make news)).shape (Term.node place (make olds)).shape := by
  obtain ⟨meets, -⟩ := all_shape_iff.1 upholds
  rw [shape_eq_mapChildren] at meets
  refine ⟨all_shape_iff.2 ⟨?_, fun child held => ?_⟩, ?_, fun _ => ?_⟩
  · rw [shape_eq_mapChildren]
    rcases isList with rfl | rfl
    · refine meets_block_iff.2 (List.forall_mem_map.2 fun term held => ?_)
      rcases (each term held).2 with isStep | ⟨old, isOld, serves⟩
      · exact isStep
      · exact serves.isStep (meets_block_iff.1 meets _ (List.mem_map_of_mem isOld))
    · refine meets_unit_iff.2 (List.forall_mem_map.2 fun term held => ?_)
      rcases (each term held).2 with isStep | ⟨old, isOld, serves⟩
      · exact isStep.1
      · exact serves.suits.sort.trans (meets_unit_iff.1 meets _ (List.mem_map_of_mem isOld))
  · exact (each child (isList.children_eq news ▸ held)).1
  · rw [shape_eq_mapChildren, shape_eq_mapChildren]
    rcases isList with rfl | rfl <;> cases grade
    · exact ⟨rfl, id, id⟩
    · exact ⟨by constructor <;> rfl, Nat.min_le_left _ _, id, id, id, id⟩
    · exact ⟨rfl, id, id⟩
    · exact ⟨by constructor <;> rfl, Nat.min_le_left _ _, id, id, id, id⟩
  · rcases isList with rfl | rfl <;> exact Nat.le_refl _

/-- What a statement becomes leaves the whole of the sort that it was. -/
theorem Becomes.sort_eq (becomes : Becomes whole statement new result) (once : whole.refs.Nodup)
    (within : statement ∈ whole.subterms)
    (below : statement ≠ whole) : result.kind.sort = whole.kind.sort := by
  cases becomes with
  | listed inside => exact sort_swap once inside (Kind.sort_of_skeleton skeleton_splice)
  | blocked place =>
    have differs : whole.ref ≠ statement.ref := fun same =>
      below (subterm_unique once within (self_mem_subterms whole) same.symm)
    rw [kind_swap_of_ne differs, Kind.sort_of_skeleton (skeleton_mapChildren _ _)]

/-- The statements that a statement becomes are there afterwards. -/
theorem Becomes.mem_subterms {term : Outline} (becomes : Becomes whole statement new result)
    (once : whole.refs.Nodup)
    (within : statement ∈ whole.subterms) (isNew : term ∈ new) : term ∈ result.subterms := by
  cases becomes with
  | @listed holder inside held fits =>
    refine subterms_child (mem_subterms_swap once inside) ?_
    change term ∈ parts (splice statement.ref new holder.kind)
    rw [parts_splice fits]
    exact List.mem_flatMap.2 ⟨statement, held, by rwa [if_pos rfl]⟩
  | blocked place unlisted =>
    exact subterms_trans (mem_subterms_swap once within) (IsListForm.mem_subterms (.inl rfl) isNew)

/-- What a statement becomes leaves a program as a grade asks it to be. -/
theorem Becomes.upholds (becomes : Becomes whole statement new result) (once : whole.refs.Nodup)
    (within : statement ∈ whole.subterms) (below : statement ≠ whole)
    (upholds : Upholds grade whole.shape)
    (isStep : IsStep grade statement.shape) (noBlock : Shape.isBlock statement.shape = false)
    (header : grade = .formed →
      ∀ holder ∈ whole.subterms, ∀ initializers condition incrementors body,
      holder.kind ≠ .forLoop (some statement) initializers condition incrementors body)
    (each : ∀ term ∈ new, Upholds grade term.shape ∧ IsStep grade term.shape) :
    Upholds grade result.shape := by
  have isStatement : statement.kind.sort = .statement := sort_shape statement ▸ isStep.1
  cases becomes with
  | @listed holder inside held fits =>
    have inPlace := (inPlace_of_upholds upholds).subterm inside
    obtain ⟨make, olds, isList, same⟩ :=
      exists_listForm (isList_of_fitsInto inPlace.here held isStatement fits)
    rcases holder with ⟨place, form⟩
    obtain rfl : form = make olds := same
    have upholdsList := upholds_of_mem upholds inside
    have supplants : Supplants grade (Term.node place (splice statement.ref new (make olds))).shape
        (Term.node place (make olds)).shape := by
      rw [isList.splice_eq]
      refine isList.supplants upholdsList fun term isNew => ?_
      obtain ⟨old, isOld, among⟩ := List.mem_flatMap.1 isNew
      split at among
      · exact (each term among).imp_right .inl
      · obtain rfl := List.mem_singleton.1 among
        refine ⟨(all_shape_iff.1 upholdsList).2 term ?_, .inr ⟨term, isOld, .refl grade _⟩⟩
        rwa [isList.children_eq]
    exact (supplants_swap once inside upholds supplants).upholds
  | blocked place unlisted =>
    refine upholds_swap_block once within below upholds isStep noBlock
      (all_shape_iff.2 ⟨?_, fun term held => ?_⟩) rfl unlisted header
    · rw [shape_eq_mapChildren]
      exact meets_block_iff.2 (List.forall_mem_map.2 fun term held => (each term held).2)
    · exact (each term (IsListForm.children_eq (.inl rfl) new ▸ held)).1

end

end Tree

/-- A tree is that of a unit whose nodes are as a grade asks. -/
def Tree.Upholds (grade : Grade) (tree : Tree) : Prop :=
  ∃ whole, tree.IsProgram whole ∧ whole.kind.sort = .unit ∧ Shape.Upholds grade whole.shape

/-- A tree is that of a unit whose nodes are as a grade asks, if no receiver holds together too
loosely. -/
def Tree.UpholdsIfTight (grade : Grade) (tree : Tree) : Prop :=
  ∃ whole, tree.IsProgram whole ∧ whole.kind.sort = .unit ∧
    ((grade = .formed → whole.shape.All (¬IsLoose ·)) → Shape.Upholds grade whole.shape)

theorem Tree.Upholds.ifTight {grade : Grade} {tree : Tree}
    (upholds : tree.Upholds grade) : tree.UpholdsIfTight grade := by
  obtain ⟨whole, program, isUnit, upholds⟩ := upholds
  exact ⟨whole, program, isUnit, fun _ => upholds⟩

namespace Term

variable {grade : Grade} {whole : Outline}

/-- A name that is allowed is as a grade asks. -/
theorem upholds_of_ident {α : Type} {term : Term α} {name : String}
    (isName : term.kind = .ident name)
    (allows : Allows grade name) : Shape.Upholds grade term.shape :=
  (upholds_iff_of_kind isName).2 ⟨meets_ident_iff.2 allows, by simp [parts]⟩

/-- Inlining calls leaves statements that may stand where some of the statements did. -/
theorem Inlines.supplants {plain : Outline → Prop} {links : List Link} {first last : Outline}
    {later rest : List Outline}
    (inlines : Inlines plain links first later last rest)
    (names : ∀ link ∈ links, ∀ part, plain part → part.ref = link.use →
      ∃ name, part.kind = .ident name)
    (calls : ∀ link ∈ links, ∀ term ∈ first :: later, ∀ part ∈ term.subterms, part.ref
      = link.value → ∃ callee arguments, part.kind = .invoke callee arguments)
    (once : ((first :: later).flatMap refs).Nodup)
    (upholds : ∀ term ∈ first :: later, Shape.Upholds grade term.shape) :
    ∀ term ∈ last :: rest, ∃ old ∈ first :: later, Supplants grade term.shape old.shape := by
  induction inlines with
  | done => exact fun term isTerm => ⟨term, isTerm, .refl (upholds term isTerm)⟩
  | @step links first consumer last value use later rest type declares _ leads plainUse _ ih =>
    have onceRest := once.sublist (List.Sublist.flatMap (List.sublist_cons_self first _) refs)
    have onceConsumer :=
      onceRest.sublist (List.Sublist.flatMap (List.singleton_sublist.2 (.head later)) refs)
    rw [List.flatMap_singleton] at onceConsumer
    obtain ⟨name, isName⟩ := names _ (.head _) use plainUse rfl
    obtain ⟨callee, arguments, isCall⟩ :=
      calls _ (.head _) first (.head _) value declares.mem_subterms rfl
    have inlined : Supplants grade (swap use.ref value consumer).shape consumer.shape := by
      refine supplants_swap onceConsumer leads.mem_subterms
        (upholds consumer (.tail _ (.head _))) ?_
      exact (isTight_of_kind isCall rfl).supplants (isTight_of_kind isName rfl)
        (upholds_of_mem (upholds first (.head _)) declares.mem_subterms)
    have found := ih (fun link isLink => names link (.tail _ isLink))
      (fun link isLink term isTerm part inside same => ?_)
      (declares.nodup_inline leads.mem_subterms once) fun term isTerm => ?_
    · intro term isTerm
      obtain ⟨old, isOld, supplants⟩ := found term isTerm
      rcases List.mem_cons.1 isOld with rfl | isOld
      · exact ⟨consumer, .tail _ (.head _), supplants.trans inlined⟩
      · exact ⟨old, .tail _ (.tail _ isOld), supplants⟩
    · rcases List.mem_cons.1 isTerm with rfl | isTerm
      · rcases exists_of_mem_subterms_swap onceConsumer leads.mem_subterms inside with
          inValue | ⟨other, isOther, outside, rfl⟩
        · exact calls link (.tail _ isLink) first (.head _) part
            (subterms_trans declares.mem_subterms inValue) same
        · have differ : other.ref ≠ use.ref := fun here => outside
            (subterm_unique onceConsumer isOther leads.mem_subterms here ▸ self_mem_subterms _)
          rw [ref_swap_of_ne differ] at same
          obtain ⟨callee, arguments, isCall⟩ :=
            calls link (.tail _ isLink) consumer (.tail _ (.head _)) other isOther same
          exact ⟨_, _, (kind_swap_of_ne differ).trans (congrArg _ isCall)⟩
      · exact calls link (.tail _ isLink) term (.tail _ (.tail _ isTerm)) part inside same
    · rcases List.mem_cons.1 isTerm with rfl | isTerm
      · exact inlined.upholds
      · exact upholds term (.tail _ (.tail _ isTerm))

end Term

namespace Tree

variable {grade : Grade} {whole : Outline}

/-- What a declaration of a call declares is a call of a member. -/
theorem isSome_of_callDeclaration? {tree : Tree} {model : Model} {statement : Ref}
    {temporary : CallDeclaration} (found : tree.callDeclaration? model statement = some temporary) :
    (tree.calledMember? temporary.value).isSome := by
  rw [callDeclaration?] at found
  split at found
  · split at found
    · split at found
      · obtain ⟨_, isCall, found⟩ := Option.bind_eq_some_iff.1 found
        obtain ⟨_, -, found⟩ := Option.bind_eq_some_iff.1 found
        obtain rfl := Option.some.inj found
        by_contra other
        rw [guard, if_neg other] at isCall
        exact Option.some_ne_none _ isCall.symm
      · cases found
    · cases found
  · cases found

/-- A program that may stand where a unit did is one. -/
theorem Upholds.of_supplants {result : Tree}
    {changed : Outline} (program : result.IsProgram changed) (isUnit : whole.kind.sort = .unit)
    (supplants : Supplants grade changed.shape whole.shape) : result.Upholds grade :=
  ⟨changed, program, (sort_of_serves supplants.serves).trans isUnit, supplants.upholds⟩

/-- So is one in which a part was swapped for another one that may stand there. -/
theorem Upholds.of_swap {tree result : Tree} {part new : Outline} (program : tree.IsProgram whole)
    (isUnit : whole.kind.sort = .unit) (upholds : Shape.Upholds grade whole.shape)
    (within : part ∈ whole.subterms) (swapped : result.IsProgram (swap part.ref new whole))
    (supplants : Supplants grade new.shape part.shape) :
    result.Upholds grade :=
  .of_supplants swapped isUnit (supplants_swap program.stands.once within upholds supplants)

end Tree

namespace Context

variable {tree : Tree} {settings : Settings} {grade : Grade} {whole : Outline} {ref : Ref}

/-- Inlining temporaries leaves a program as a grade asks it to be. -/
theorem chainCalls_upholds (program : tree.IsProgram whole) (isUnit : whole.kind.sort = .unit)
    (upholds : Shape.Upholds grade whole.shape) (member : ref ∈ whole.refs) :
    Attempt.Gives ((ofTree tree settings).chainCalls ref) (Offers (Tree.Upholds grade)) := by
  let plain (part : Outline) : Prop :=
    ((Model.build tree).symbolOf part.ref).isSome → ∃ name, part.kind = .ident name
  have isPlain : ∀ part ∈ whole.subterms, plain part := by
    intro part within refers
    obtain ⟨other, inside, same, name, isName⟩ := program.exists_ident_of_symbolOf refers
    obtain rfl := subterm_unique program.stands.once inside within same
    exact ⟨name, isName⟩
  refine (@chainCalls_chains (ofTree tree settings) whole plain ref program member
    (fun part within type declarators form => isPlain type (subterms_child within (by
      simp [Term.children, form, parts]))) fun part within _ => isPlain part within).mono
    fun offered offers action isOffered => ?_
  obtain ⟨position, place, make, links, front, later, rest, first, last, chains⟩ :=
    offers action isOffered
  have standsList := program.stands.subterm chains.within
  have standsAll := standsList.children.1
  rw [chains.isList.children_eq] at standsAll
  have upholdsList := upholds_of_mem upholds chains.within
  have each (term : Outline)
      (isTerm : term ∈ front ++ first :: later) : Shape.Upholds grade term.shape :=
    upholds_of_mem upholdsList (chains.isList.mem_subterms isTerm)
  have supplants :=
    @Inlines.supplants grade _ _ _ _ _ _ chains.inlines (fun link isLink part isName same => ?_)
    (fun link isLink term isTerm part inside same => ?_) (StandsAll.append_iff.1 standsAll).2.1.once
    fun term isTerm => each term (List.mem_append_right _ isTerm)
  · refine .of_swap program isUnit upholds chains.within chains.program
      (chains.isList.supplants upholdsList fun term isTerm => ?_)
    rcases List.mem_append.1 isTerm with inFront | isLater
    · exact ⟨each term (List.mem_append_left _ inFront),
        .inr ⟨term, List.mem_append_left _ inFront, .refl grade _⟩⟩
    · obtain ⟨old, isOld, supplants⟩ := supplants term isLater
      exact ⟨supplants.upholds, .inr ⟨old, List.mem_append_right _ isOld, supplants.serves⟩⟩
  · exact isName (same ▸ (exists_of_mem_linksAt (chains.isLinks ▸ isLink)).1)
  · obtain ⟨-, declared, statement, found, -, isValue⟩ :=
      exists_of_mem_linksAt (chains.isLinks ▸ isLink)
    obtain ⟨called, isCalled⟩ := Option.isSome_iff_exists.1 (isSome_of_callDeclaration? found)
    rw [isValue, ← same] at isCalled
    have within : part ∈ (Term.node place (make (front ++ first :: later))).subterms :=
      subterms_trans (chains.isList.mem_subterms (List.mem_append_right front isTerm)) inside
    obtain ⟨access, receiver, arguments, isCall, -⟩ :=
      calledMember?_eq_some (standsList.subterm within).shown isCalled
    exact ⟨_, _, isCall⟩

end Context

/-- Identifiers are names as the grammar has them. -/
theorem isName_of_isIdentifier {text : String} (word : isIdentifier text = true) :
    Lexeme.isName text = true := by
  rw [isIdentifier] at word
  rw [Lexeme.isName]
  cases spelled : text.toList with
  | nil =>
    rw [spelled] at word
    cases word
  | cons first rest =>
    rw [spelled] at word
    simp only [Bool.and_eq_true, Bool.not_eq_true'] at word ⊢
    refine ⟨word.1, Option.isNone_iff_eq_none.2 (List.find?_eq_none.2 fun keyword among => ?_)⟩
    have reserved : ∀ keyword ∈ Keyword.all, reservedWords.contains keyword.spelling = true := by
      decide
    rintro same
    rw [← eq_of_beq same, reserved keyword among] at word
    cases word.2

namespace NameScope

variable {scope : NameScope} {preferred : List String} {ladder : NameLadder} {grade : Grade}

theorem isName_of_isFree {name : String} (free : scope.isFree name = true) :
    Lexeme.isName name = true := by
  simp only [isFree, Bool.and_eq_true] at free
  exact isName_of_isIdentifier free.1.1

/-- What is picked is a name if the stem of the ladder is one. -/
theorem allows_pick (stem : Allows grade ladder.stem) :
    Allows grade (scope.pick preferred ladder).1 := by
  intro formed
  by_cases found : ∃ name ∈ preferred ++ ladder.candidates searchLimit, scope.isFree name = true
  · exact isName_of_isFree (isFree_pick found)
  · have stuck : ∀ name ∈ preferred ++ ladder.candidates searchLimit, scope.isFree name = false :=
      fun name among => Bool.eq_false_iff.2 fun free => found ⟨name, among, free⟩
    exact (pick_eq_stem stuck).symm ▸ stem formed

theorem allows_pickMany (stem : Allows grade ladder.stem) (count : Nat) :
    ∀ name ∈ scope.pickMany ladder count, Allows grade name := by
  induction count generalizing scope with
  | zero => nofun
  | succ count ih =>
    have here : Allows grade (scope.pick [] ladder).1 := allows_pick stem
    have others := @ih (scope.pick [] ladder).2
    rw [pickMany]
    generalize scope.pick [] ladder = picked at here others ⊢
    exact List.forall_mem_cons.2 ⟨here, others⟩

end NameScope

/-- The ladders of the settings. -/
def Settings.ladders (settings : Settings) : List NameLadder :=
  [settings.counter, settings.iteration, settings.lambdaParameter, settings.array, settings.items,
    settings.temporary]

/-- The stems of all ladders are names, as far as a grade asks for it. -/
def Settings.Allowed (grade : Grade) (settings : Settings) : Prop :=
    ∀ ladder ∈ settings.ladders, Allows grade ladder.stem

theorem Settings.allowed_formed : Settings.Allowed .formed {} := by
  intro ladder among _
  revert ladder
  decide

namespace Term

variable {grade : Grade} {term type declarator : Outline} {name spelled : String}

/-- The declaration of a variable is a statement. -/
theorem upholds_declaration {value : Option Outline}
    (isDeclaration : term.kind = .localDecl (some type) [declarator])
    (isType : type.kind = .typeRef spelled [] 0)
    (isDeclarator : declarator.kind = .declarator name value)
    (allowsType : Allows grade spelled) (allows : Allows grade name)
    (each : ∀ inner ∈ value, Upholds grade inner.shape ∧ isExpression inner.shape = true) :
    Upholds grade term.shape ∧ IsStep grade term.shape := by
  have upholdsType : Upholds grade type.shape :=
    (upholds_iff_of_kind isType).2 ⟨meets_typeRef_iff.2 allowsType, by simp [parts]⟩
  have upholdsDeclarator : Upholds grade declarator.shape :=
    (upholds_iff_of_kind isDeclarator).2
      ⟨meets_declarator_iff.2 ⟨by simpa using fun inner held => (each inner held).2, allows⟩,
        by simpa [parts] using fun inner held => (each inner held).1⟩
  refine ⟨(upholds_iff_of_kind isDeclaration).2 ⟨meets_localDecl_iff.2 ⟨needs_some ?_, ?_⟩, ?_⟩, ?_⟩
  · rw [sort_shape, isType]
    rfl
  · rw [sort_shape, isDeclarator]
    rfl
  · simpa [parts] using ⟨upholdsType, upholdsDeclarator⟩
  · rw [shape_of_kind isDeclaration]
    exact ⟨rfl, fun _ => rfl⟩

/-- Introducing temporaries for a chain of calls leaves a statement that may stand where it did,
beside the declarations. -/
theorem Introduces.supplants {temporaries : List Introduced} {call statement last : Outline}
    (introduces : Introduces temporaries call statement last) (once : statement.refs.Nodup)
    (isCall : call ∈ statement.subterms → ∃ callee arguments, call.kind = .invoke callee arguments)
    (names : ∀ temporary ∈ temporaries, Allows grade temporary.name)
    (upholds : Upholds grade statement.shape) :
    (∀ temporary ∈ temporaries, Upholds grade temporary.declaration.shape ∧
      IsStep grade temporary.declaration.shape) ∧ Supplants grade last.shape statement.shape := by
  induction introduces with
  | done => exact ⟨nofun, .refl upholds⟩
  | @step temporary others call next statement last isValue made first fresh rest ih =>
    obtain ⟨allows, allowsOthers⟩ := List.forall_mem_cons.1 names
    have within := subterms_trans first.mem_subterms made.first.mem_subterms
    obtain ⟨callee, arguments, isCall⟩ := isCall within
    have onceNext := once.sublist (refs_sublist first.mem_subterms)
    have swapped := supplants_swap once within upholds
      ((isTight_of_kind temporary.isUse rfl).supplants (isTight_of_kind isCall rfl)
      (upholds_of_ident temporary.isUse allows))
    have differs := (made.first.leads.ref_ne onceNext).symm
    obtain ⟨access, nextArguments, member, conditional, isNext, -⟩ := made
    obtain ⟨declarations, supplants⟩ := ih (temporary.nodup_swap once within fresh) (fun _ =>
      ⟨_, _, (kind_swap_of_ne differs).trans (congrArg _ isNext)⟩) allowsOthers swapped.upholds
    refine ⟨List.forall_mem_cons.2 ⟨?_, declarations⟩, supplants.trans swapped⟩
    subst isValue
    refine upholds_declaration temporary.isDeclaration temporary.isType temporary.isDeclarator
      (fun _ => by decide) allows ?_
    rintro _ ⟨⟩
    exact ⟨upholds_of_mem upholds within, (isTight_of_kind isCall rfl).isExpression⟩

end Term

/-- Temporaries are put in front of simple statements only, and not in loops. -/
theorem Tree.IsProgram.simple_of_canFollow {tree : Tree} {whole statement : Outline}
    (program : tree.IsProgram whole) (within : statement ∈ whole.subterms)
    (canFollow : tree.canFollowTemporaries statement.ref = true) :
    Shape.isStatement statement.shape = true ∧ Shape.isBlock statement.shape = false ∧
      ∀ holder ∈ whole.subterms, ∀ initializers condition incrementors body,
        holder.kind ≠ .forLoop (some statement) initializers condition incrementors body := by
  rw [canFollowTemporaries] at canFollow
  obtain ⟨isSimple, notInLoop⟩ := Bool.and_eq_true_iff.1 canFollow
  have shows := program.stands.shows within
  refine and_assoc.1 ⟨?_, fun holder inside initializers condition incrementors body isLoop => ?_⟩
  · have same : (tree.kind statement.ref).skeleton = statement.shape.kind.skeleton :=
      shows.depicts.skeleton.trans statement.skeleton_shape.symm
    generalize statement.shape = shape at same ⊢
    rcases shape with ⟨note, form⟩
    cases isKind : tree.kind statement.ref <;> rw [isKind] at isSimple same <;>
      simp only [Bool.false_eq_true] at isSimple
    all_goals cases form <;> first | exact ⟨rfl, rfl⟩ | cases same
  · have held : statement ∈ holder.children := by simp [Term.children, isLoop, parts]
    have same := (program.stands.shows inside).depicts.skeleton
    rw [program.stands.parent inside held] at notInLoop
    obtain ⟨number, -, isRef⟩ := (program.stands.subterm inside).hasRef (ref_mem_refs holder)
    rw [isRef] at notInLoop same
    obtain ⟨_, _, _, _, _, isKind⟩ : ∃ declaration initializers condition incrementors body,
        tree.kind (some number)
          = .forLoop declaration initializers condition incrementors body := by
      rw [isLoop] at same
      cases isKind : tree.kind (some number) <;> rw [isKind] at same <;> cases same
      exact ⟨_, _, _, _, _, rfl⟩
    simp [isKind] at notInLoop

namespace Context

variable {context : Context} {grade : Grade} {whole : Outline} {ref : Ref}

/-- Introducing temporaries leaves a program as a grade asks it to be. -/
theorem unchainCalls_upholds (program : context.tree.IsProgram whole)
    (isUnit : whole.kind.sort = .unit) (upholds : Shape.Upholds grade whole.shape)
    (member : ref ∈ whole.refs) (allowed : context.settings.Allowed grade) :
    Attempt.Gives (context.unchainCalls ref) (Offers (Tree.Upholds grade)) := by
  refine (unchainCalls_puts program member).mono fun offered offers action isOffered => ?_
  obtain ⟨statement, call, rest, term, calls, temporaries, unchains⟩ := offers action isOffered
  have once := program.stands.once
  have standsStatement := program.stands.subterm unchains.within
  obtain ⟨isStatement, noBlock, header⟩ :=
    program.simple_of_canFollow unchains.within unchains.canFollow
  have isStep : IsStep grade statement.shape :=
    ⟨sort_of_isStatement isStatement, fun _ => isStatement⟩
  have isCall (inside : call ∈ statement.subterms) :
      ∃ callee arguments, call.kind = .invoke callee arguments := by
    obtain ⟨called, isCalled⟩ := Option.isSome_iff_exists.1 unchains.isCalled
    obtain ⟨access, receiver, arguments, isCall, -⟩ :=
      calledMember?_eq_some (standsStatement.subterm inside).shown isCalled
    exact ⟨_, _, isCall⟩
  have names (temporary : Introduced)
      (among : temporary ∈ temporaries) : Allows grade temporary.name := by
    have isNamed : temporary.name ∈ temporaries.map (·.name) := List.mem_map_of_mem among
    rw [unchains.areNamed] at isNamed
    exact NameScope.allows_pickMany (allowed _ (by simp [Settings.ladders])) _ _ isNamed
  obtain ⟨declarations, supplants⟩ :=
    unchains.introduces.supplants standsStatement.once isCall names
      (upholds_of_mem upholds unchains.within)
  have below : statement ≠ whole := by
    rintro rfl
    exact NodeSort.noConfusion (isUnit.symm.trans ((sort_shape statement).symm.trans isStep.1))
  refine ⟨term, unchains.program,
    (unchains.becomes.sort_eq once unchains.within below).trans isUnit, unchains.becomes.upholds
    once unchains.within below upholds isStep noBlock (fun _ => header) fun term isTerm => ?_⟩
  rcases List.mem_append.1 isTerm with isDeclaration | isRest
  · obtain ⟨temporary, among, rfl⟩ := List.mem_map.1 isDeclaration
    exact declarations temporary among
  · obtain rfl := List.mem_singleton.1 isRest
    exact ⟨supplants.upholds, supplants.serves.isStep isStep⟩

end Context

end Refactory
