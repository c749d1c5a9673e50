import Refactory.Proofs.Refactoring.LoopBodies
import Refactory.Proofs.Refactoring.UpholdingMerge

/-!
# Loops and grades

Converting a counted loop leaves a program as a grade asks it to be
(`Context.forToForEach_upholds`), and so does converting a loop over elements, if no receiver holds
together too loosely (`Context.forEachToFor_upholds`). What is put in the place of elements is
tight, so that the bodies may stand where they did, and loops of the two kinds serve for each other
if their bodies do (`Shape.serves_forEach`, `Shape.serves_forLoop`). Only the collection that is
turned into an array comes to be a receiver (`ElementLoop.Opens.upholds`).
-/
namespace Refactory

open Term Shape Refactory.Tree

namespace Shape

variable {grade : Grade} {note note' : Unit}
  {type collection declaration condition body body' : Option Shape} {name : String}
  {initializers incrementors : List Shape}

theorem needs_isStep_iff : Needs .formed (IsStep .formed) body ↔ body.any isStatement = true :=
  needs_formed_iff fun _ => ⟨fun isStep => isStep.2 rfl, fun statement =>
    ⟨sort_of_isStatement statement, fun _ => statement⟩⟩

theorem meets_forEach_iff : Meets grade (.node note (.forEach type name collection body)) ↔
    Needs grade (·.kind.sort = .type) type ∧ Allows grade name ∧
    Needs grade (Binds grade 0) collection ∧ Needs grade (IsStep grade) body := by
  cases grade with
  | sorted =>
    rw [meets_sorted_iff rfl, needs_sorted_iff, needs_sorted_iff, needs_sorted_iff]
    simp [Kind.childSorts, Term.fits_one, Allows, Binds, isExpression_iff_sort, IsStep]
  | formed =>
    rw [needs_formed_iff fun _ => isType_iff_sort.symm, needs_formed_iff fun _ =>
      binds_formed_zero, needs_isStep_iff]
    simp [Meets, IsFormed, IsDoubleNegation, Allows]

/-- The body of a loop is a statement. -/
theorem Meets.needs_body (meets : Meets grade
      (.node note (.forLoop declaration initializers condition incrementors body))) :
    Needs grade (IsStep grade) body := by
  cases grade with
  | sorted =>
    have sorts := meets.isSeated.inPlace.sorts
    simp only [Term.kind, Kind.slots, Kind.childSorts, List.forall₂_cons, Term.fits_one,
      List.mem_singleton] at sorts
    exact needs_sorted_iff.2 fun shape held =>
      ⟨sorts.2.2.2.2.1 shape held, fun formed => by cases formed⟩
  | formed =>
    obtain ⟨⟨-, -, -, -, -, isStatement⟩, -⟩ := meets
    exact needs_isStep_iff.2 isStatement

/-- A loop that counts. -/
theorem meets_counting_iff {declaration condition step : Shape} :
    Meets grade (.node note (.forLoop (some declaration) [] (some condition) [step] body)) ↔
      (declaration.kind.sort = .statement ∧ (grade = .formed → isDeclaration declaration = true)) ∧
        Binds grade 0 condition ∧ Binds grade 0 step ∧ Needs grade (IsStep grade) body := by
  cases grade with
  | sorted =>
    rw [meets_sorted_iff rfl, needs_sorted_iff]
    simp [Kind.childSorts, Term.fits_one, Term.fits_many, Binds, isExpression_iff_sort, IsStep]
  | formed =>
    have sort
        (declares : isDeclaration declaration = true) : declaration.kind.sort = .statement := by
      rcases declaration with ⟨note, form⟩
      cases form <;> first | rfl | cases declares
    rw [needs_isStep_iff, binds_formed_zero, binds_formed_zero]
    simp [Meets, IsFormed, IsDoubleNegation]
    grind

theorem meets_zero : Meets grade (.node note (.int 0)) := by
  cases grade with
  | sorted => exact (meets_sorted_iff rfl).2 (by simp [Kind.childSorts])
  | formed => simp [Meets, IsFormed, IsDoubleNegation]

/-- A loop over elements may stand where a counted loop does with a body in whose place that of the
other may stand. -/
theorem serves_forEach (serves : ∀ new ∈ body', ∃ old ∈ body, Serves grade new old) :
    Serves grade (.node note (.forEach type name collection body'))
      (.node note' (.forLoop declaration initializers condition incrementors body)) := by
  cases grade with
  | sorted => exact ⟨rfl, fun isBare => (by cases isBare), fun isBlock => (by cases isBlock)⟩
  | formed =>
    refine ⟨by constructor <;> rfl, Nat.min_le_left _ _, id, id, fun endsOpen => ?_, id⟩
    cases body' with
    | none => cases endsOpen
    | some new =>
      obtain ⟨old, rfl, fits⟩ := serves new rfl
      exact fits.endsOpenIf endsOpen

/-- So may a counted loop where a loop over elements does. -/
theorem serves_forLoop (serves : ∀ new ∈ body', ∃ old ∈ body, Serves grade new old) :
    Serves grade (.node note (.forLoop declaration initializers condition incrementors body'))
      (.node note' (.forEach type name collection body)) := by
  cases grade with
  | sorted => exact ⟨rfl, fun isBare => (by cases isBare), fun isBlock => (by cases isBlock)⟩
  | formed =>
    refine ⟨by constructor <;> rfl, Nat.min_le_left _ _, id, id, fun endsOpen => ?_, id⟩
    cases body' with
    | none => cases endsOpen
    | some new =>
      obtain ⟨old, rfl, fits⟩ := serves new rfl
      exact fits.endsOpenIf endsOpen

end Shape

namespace Term

variable {grade : Grade} {body : Option Outline} {change : Outline → Outline}

/-- The body of a loop stays a statement that serves when another one comes in its place that may
stand there. -/
theorem serves_of_body
    (supplants : ∀ inner ∈ body, Supplants grade (change inner).shape inner.shape)
    (needs : Needs grade (IsStep grade) (body.map shape)) :
    Needs grade (IsStep grade) ((body.map change).map shape) ∧
      ∀ new ∈ (body.map change).map shape, ∃ old ∈ body.map shape, Serves grade new old := by
  cases body with
  | none => exact ⟨needs, by simp⟩
  | some inner =>
    have serves := (supplants inner rfl).serves
    exact ⟨needs_some (serves.isStep (needs.1 _ rfl)), by simpa using serves⟩

end Term

namespace CountedLoop

variable {grade : Grade} {loop : CountedLoop} {tree after : Tree} {model : Model}
  {whole term collection declarator converted : Outline} {body : Option Outline}
  {name counter : String} {value : Outline → Outline} {moved : Ref → Ref}

/-- A loop over elements may stand where a counted loop did that is converted. -/
theorem Converts.supplants (converts : loop.Converts tree model whole term collection body name
      value moved converted after)
    (stands : loop.Stands tree model term collection declarator body counter)
    (upholds : Upholds grade term.shape)
    (allows : Allows grade name) : Supplants grade converted.shape term.shape := by
  obtain ⟨declaration, condition, steps, type, left, bound, form, -, isCondition, isSize⟩ :=
    stands.form
  obtain ⟨meets, below⟩ := (upholds_iff_of_kind form).1 upholds
  have standsCollection := stands.apart.each collection (by simp)
  obtain ⟨root, members, path⟩ := exists_isPath standsCollection.shown stands.isStable
  have upholdsCollection : Upholds grade collection.shape := by
    have inCondition : bound ∈ condition.subterms :=
      child_mem_subterms (by simp [Term.children, isCondition, parts])
    exact upholds_of_mem
      (upholds_of_mem (below condition (by simp [parts])) inCondition) isSize.mem_subterms
  have elements (inner : Outline) (isBody : inner ∈ body) : Supplants grade
      (inner.replacing (tree.isElementAt model loop.counter collection.ref) value moved).shape
      inner.shape := by
    have standsBody := stands.apart.each inner (by simp [Option.mem_def.1 isBody])
    refine supplants_replacing (below inner (by simp [parts, Option.mem_def.1 isBody]))
      fun part isHit => ?_
    have isName := converts.named inner isBody part isHit
    obtain ⟨inside, isElement⟩ := topmost_subset _ inner part isHit
    obtain ⟨receiver, position, isIndex, -⟩ :=
      (isElementAt_iff (standsBody.shown.subterm inside) standsCollection.displays).1 isElement
    exact (isTight_of_kind isName rfl).supplants (isTight_of_kind isIndex rfl)
      (upholds_of_ident isName allows)
  obtain ⟨place, isLoop⟩ := converts.form
  obtain ⟨needs, serves⟩ := serves_of_body elements meets.needs_body
  refine ⟨(upholds_iff_of_kind isLoop).2
    ⟨meets_forEach_iff.2 ⟨needs_some ?_, allows, needs_some ?_, needs⟩, ?_⟩, ?_, ?_⟩
  · rfl
  · exact .of_isTight (isTight_of_isPath path) (Nat.zero_le _)
  · simp only [parts, Kind.slots, List.flatMap_cons, List.flatMap_nil, Slot.terms, List.append_nil,
      Option.toList_some, List.mem_append, List.mem_singleton, Option.mem_toList]
    rintro child (rfl | rfl | held)
    · exact upholds_node_iff.2 ⟨meets_typeRef_iff.2 fun _ => by decide, by simp [parts]⟩
    · exact upholdsCollection
    · obtain ⟨inner, isBody, rfl⟩ := Option.map_eq_some_iff.1 held
      exact (elements inner isBody).upholds
  · rw [shape_of_kind isLoop, shape_of_kind form]
    exact serves_forEach serves
  · rw [shape_of_kind isLoop, shape_of_kind form]
    exact fun _ => Nat.le_refl _

end CountedLoop

namespace ElementLoop

variable {grade : Grade} {loop : ElementLoop} {tree opened placed : Tree} {model : Model}
  {element : SymbolId} {whole term target declarator converted : Outline}
  {type collection body : Option Outline} {name sizeMember counter : String}

/-- A loop that counts up to the size of something that holds together tightly is as a grade asks if
the body is. -/
theorem IsCounted.upholds
    (isCounted : IsCounted target sizeMember counter body declarator converted)
    (upholdsTarget : Upholds grade target.shape) (tight : IsTight target.shape)
    (allowsSize : Allows grade sizeMember)
    (allows : Allows grade counter) (upholdsBody : ∀ inner ∈ body, Upholds grade inner.shape)
    (needs : Needs grade (IsStep grade) (body.map Term.shape)) : Upholds grade converted.shape := by
  obtain ⟨⟨declaration, condition, step, isLoop, ⟨place, isDeclaration⟩, ⟨tested, size, isCondition,
    isTested, isSize⟩, stepped, isStep, isStepped⟩, zero, isDeclarator, isZero⟩ := isCounted
  have upholdsZero : Upholds grade zero.shape :=
    (upholds_iff_of_kind isZero).2 ⟨meets_zero, by simp [parts]⟩
  have isZeroExpression : isExpression zero.shape = true := by
    rw [shape_of_kind isZero]
    rfl
  obtain ⟨upholdsDeclaration, sort, -⟩ :=
    upholds_declaration isDeclaration rfl isDeclarator (fun _ => by decide) allows
      (by simpa using ⟨upholdsZero, isZeroExpression⟩)
  have upholdsSize : Upholds grade size.shape := (upholds_iff_of_kind isSize).2
    ⟨meets_member_iff.2 ⟨needs_some (.of_isTight tight (Nat.le_refl _)),
    allowsSize⟩, by simpa [parts] using upholdsTarget⟩
  have upholdsCondition : Upholds grade condition.shape := by
    refine (upholds_iff_of_kind isCondition).2
      ⟨(meets_binary_iff (by decide)).2 ⟨needs_some ?_, needs_some ?_⟩,
      by simpa [parts] using ⟨upholds_of_ident isTested allows, upholdsSize⟩⟩
    · exact .of_isTight (isTight_of_kind isTested rfl) (by decide)
    · exact .of_isTight (isTight_of_kind isSize rfl) (by decide)
  have upholdsStep : Upholds grade step.shape := by
    refine (upholds_iff_of_kind isStep).2 ⟨meets_postInc_iff.2 (needs_some ?_), ?_⟩
    · exact .of_isTight (isTight_of_kind isStepped rfl) (Nat.le_refl _)
    · simpa [parts] using upholds_of_ident isStepped allows
  refine (upholds_iff_of_kind isLoop).2 ⟨meets_counting_iff.2
    ⟨⟨sort, fun _ => ?_⟩, ⟨?_, fun _ => Nat.zero_le _⟩, ⟨?_, fun _ => Nat.zero_le _⟩, needs⟩, ?_⟩
  · rw [shape_of_kind isDeclaration]
    rfl
  · rw [shape_of_kind isCondition]
    rfl
  · rw [shape_of_kind isStep]
    rfl
  · simp only [parts, Kind.slots, List.flatMap_cons, List.flatMap_nil, Slot.terms, List.append_nil,
      Option.toList_some, List.nil_append, List.mem_append, List.mem_singleton, Option.mem_toList]
    rintro child (rfl | rfl | rfl | held)
    · exact upholdsDeclaration
    · exact upholdsCondition
    · exact upholdsStep
    · exact upholdsBody child held

/-- A counted loop may stand where the loop over elements did of which it is made. -/
theorem Counts.supplants
    (counts : loop.Counts model element sizeMember counter tree opened whole term target body
      converted placed)
    (form : term.kind = .forEach type name collection body) (upholds : Upholds grade term.shape)
    (upholdsTarget : Upholds grade target.shape) (tight : IsTight target.shape)
    (allowsSize : Allows grade sizeMember)
    (allows : Allows grade counter) : Supplants grade converted.shape term.shape := by
  obtain ⟨value, moved, declarator, isCounted, arePut⟩ := counts.form
  obtain ⟨meets, below⟩ := (upholds_iff_of_kind form).1 upholds
  obtain ⟨-, -, -, needs⟩ := meets_forEach_iff.1 meets
  have elements (inner : Outline) (isBody : inner ∈ body) : Supplants grade
      (inner.replacing ((Referent.symbol element).isAt opened model) value moved).shape
      inner.shape := by
    have standsBody := counts.stands.each inner (by simp [Option.mem_def.1 isBody])
    refine supplants_replacing (below inner (by simp [parts, Option.mem_def.1 isBody]))
      fun part isHit => ?_
    obtain ⟨inside, refers⟩ := topmost_subset _ inner part isHit
    obtain ⟨spelled, isName, -⟩ := (standsBody.shows inside).exists_ident_of_isAt refers
    obtain ⟨copy, position, isIndex, copies, isPosition⟩ := arePut inner isBody part isHit
    have upholdsElement : Upholds grade (value part).shape := by
      refine (upholds_iff_of_kind isIndex).2 ⟨meets_index_iff.2 ⟨needs_some ?_, ?_⟩, ?_⟩
      · exact .of_isTight (copies ▸ tight) (Nat.le_refl _)
      · exact .of_isTight (isTight_of_kind isPosition rfl) (Nat.zero_le _)
      · simpa [parts, copies] using ⟨upholdsTarget, upholds_of_ident isPosition allows⟩
    exact (isTight_of_kind isIndex rfl).supplants (isTight_of_kind isName rfl) upholdsElement
  obtain ⟨needs, serves⟩ := serves_of_body elements needs
  refine ⟨isCounted.upholds upholdsTarget tight allowsSize allows ?_ needs, ?_, ?_⟩
  · simp only [Option.mem_map, forall_exists_index, and_imp, forall_apply_eq_imp_iff₂]
    exact fun inner isBody => (elements inner isBody).upholds
  all_goals
    obtain ⟨⟨_, _, _, isLoop, -⟩, -⟩ := isCounted
    rw [shape_of_kind isLoop, shape_of_kind form]
  · exact serves_forLoop serves
  · exact fun _ => Nat.le_refl _

/-- The members that give the size of a collection are names. -/
theorem isName_of_access? {access : Access}
    (reads : loop.access? tree model = some (access, sizeMember)) :
    Lexeme.isName sizeMember = true := by
  suffices sizeMember = "Length" ∨ sizeMember = "Count" by
    rcases this with rfl | rfl <;> decide
  rw [access?] at reads
  split at reads
  · rename_i shape isShape
    obtain ⟨-, rfl⟩ := Prod.mk.inj (Option.some.inj reads)
    unfold DataType.collectionShape? at isShape
    grind
  · grind

/-- What declares that which elements are read from is a statement, where the collection is not too
loose to be a receiver. -/
theorem Opens.upholds {declaration : Outline} {access : Access}
    (opens : Opens collection name target access (some declaration))
    (present : grade = .formed → collection.isSome = true)
    (each : ∀ inner ∈ collection, Upholds grade inner.shape ∧ isExpression inner.shape = true)
    (allows : Allows grade name)
    (tight : grade = .formed → declaration.shape.All (¬IsLoose ·)) :
    Upholds grade declaration.shape ∧ IsStep grade declaration.shape := by
  cases opens with
  | «local» isName declares =>
    obtain ⟨type, declarator, isDeclaration, isType, isDeclarator⟩ := declares
    exact upholds_declaration isDeclaration isType isDeclarator (fun _ => by decide) allows each
  | @array _ value conversion isName declares isCall isMember =>
    obtain ⟨type, declarator, isDeclaration, isType, isDeclarator⟩ := declares
    refine upholds_declaration isDeclaration isType isDeclarator (fun _ => by decide) allows ?_
    rintro _ ⟨⟩
    refine ⟨(upholds_iff_of_kind isCall).2 ⟨meets_invoke_iff.2 ⟨needs_some ?_, by simp⟩, ?_⟩,
      (isTight_of_kind isCall rfl).isExpression⟩
    · exact .of_isTight (isTight_of_kind isMember rfl) (Nat.le_refl _)
    · simp only [parts, Kind.slots, List.flatMap_cons, List.flatMap_nil, Slot.terms,
        Option.toList_some, List.append_nil, List.mem_singleton, forall_eq]
      refine (upholds_iff_of_kind isMember).2
        ⟨meets_member_iff.2 ⟨needs_map_iff.2 ⟨fun inner isInner => ?_, present⟩,
        fun _ => by decide⟩, by simpa [parts] using fun inner held => (each inner held).1⟩
      refine ⟨(each inner isInner).2, fun formed => ?_⟩
      have isDeclared : declarator ∈ declaration.children := by
        simp [Term.children, isDeclaration, parts]
      have isValue : value ∈ declarator.children := by simp [Term.children, isDeclarator, parts]
      have isConverted : conversion ∈ value.children := by simp [Term.children, isCall, parts]
      have inside := mem_subterms_of_child isDeclared
        (mem_subterms_of_child isValue (child_mem_subterms isConverted))
      have notLoose : ¬IsLoose conversion.shape :=
        all_iff_subterms.1 (all_map_iff.1 (tight formed)) conversion inside
      rw [shape_of_kind isMember] at notLoose
      exact Nat.le_of_not_lt fun below =>
        notLoose ⟨inner.shape, by simp [Option.mem_def.1 isInner], below⟩

end ElementLoop

namespace Context

variable {context : Context} {grade : Grade} {whole : Outline} {ref : Ref}

/-- Converting a counted loop leaves a program as a grade asks it to be. -/
theorem forToForEach_upholds (program : context.tree.IsProgram whole)
    (isUnit : whole.kind.sort = .unit) (upholds : Shape.Upholds grade whole.shape)
    (member : ref ∈ whole.refs) (allowed : context.settings.Allowed grade) :
    Attempt.Gives (context.forToForEach ref) (Offers (Tree.Upholds grade)) := by
  cases found : context.convertedLoop? ref with
  | none =>
    refine (forToForEach_places program member).mono fun offered offers action isOffered => ?_
    obtain ⟨_, _, _, isFound, -⟩ := offers action isOffered
    cases found.symm.trans isFound
  | some loop =>
    obtain ⟨-, term, within, collection, declarator, body, counter, stands⟩ :=
      stands_of_convertedLoop? program member found
    refine (forToForEach_names program within found stands).mono
      fun offered offers action isOffered => ?_
    obtain ⟨value, moved, converted, converts⟩ := offers action isOffered
    refine .of_swap program isUnit upholds within converts.program ?_
    exact converts.supplants stands (upholds_of_mem upholds within)
      (NameScope.allows_pick (allowed _ (by simp [Settings.ladders])))

/-- Converting a loop over elements leaves a program as a grade asks it to be, if no receiver holds
together too loosely. -/
theorem forEachToFor_upholds (program : context.tree.IsProgram whole)
    (isUnit : whole.kind.sort = .unit) (upholds : Shape.Upholds grade whole.shape)
    (member : ref ∈ whole.refs) (allowed : context.settings.Allowed grade) :
    Attempt.Gives (context.forEachToFor ref) (Offers (Tree.UpholdsIfTight grade)) := by
  refine (forEachToFor_puts program member).mono fun offered offers action isOffered => ?_
  obtain ⟨loop, term, within, collection, body, element, access, sizeMember, name, counter,
    changed, -, plans, isProgram, opened, target, declaration, converted, placed, opens, counts, -,
    puts⟩ := offers action isOffered
  obtain ⟨type, item, form⟩ := plans.form
  have once := program.stands.once
  have upholdsLoop := upholds_of_mem upholds within
  obtain ⟨meets, below⟩ := (upholds_iff_of_kind form).1 upholdsLoop
  obtain ⟨isExpression, present⟩ := needs_map_iff.1 (meets_forEach_iff.1 meets).2.2.1
  have each (inner : Outline) (held : inner ∈ collection) :
      Shape.Upholds grade inner.shape ∧ Shape.isExpression inner.shape = true :=
    ⟨below inner (by simp [parts, Option.mem_def.1 held]), (isExpression inner held).1⟩
  have allowsCounter : Allows grade counter := by
    obtain ⟨scope, isPicked⟩ := plans.isCounter
    rw [isPicked]
    exact NameScope.allows_pick (allowed _ (by simp [Settings.ladders]))
  have allowsName (isNew : access ≠ .inPlace) : Allows grade name := by
    obtain ⟨scope, ladder, among, isPicked⟩ := plans.isName.resolve_left isNew
    rw [isPicked]
    refine NameScope.allows_pick (allowed ladder ?_)
    simp only [List.mem_cons, List.not_mem_nil, or_false] at among
    rcases among with rfl | rfl <;> simp [Settings.ladders]
  have indexed : Shape.Upholds grade target.shape ∧ IsTight target.shape := by
    cases opens with
    | inPlace isTarget =>
      subst isTarget
      have isChild : target ∈ term.children := by simp [Term.children, form, parts]
      have stable := loop.isStablePath_of_access? plans.reads
      rw [plans.isCollection] at stable
      obtain ⟨root, members, path⟩ :=
        exists_isPath (program.stands.subterm (subterms_child within isChild)).shown stable
      exact ⟨(each target rfl).1, isTight_of_isPath path⟩
    | «local» isName | array isName =>
      exact ⟨upholds_of_ident isName (allowsName fun inPlace => by cases inPlace),
        isTight_of_kind isName rfl⟩
  have supplants := counts.supplants form upholdsLoop indexed.1 indexed.2
    (fun _ => ElementLoop.isName_of_access? plans.reads)
    allowsCounter
  have swapped := supplants_swap once within upholds supplants
  rcases puts with ⟨-, rfl, rfl⟩ | ⟨statement, rfl, becomes, -⟩
  · exact (Upholds.of_supplants counts.program isUnit swapped).ifTight
  · have onceSwapped := counts.program.stands.once
    have isConverted : converted ∈ (Term.swap term.ref converted whole).subterms :=
      mem_subterms_swap once within
    have isUnitSwapped : (Term.swap term.ref converted whole).kind.sort = .unit :=
      (sort_of_serves swapped.serves).trans isUnit
    obtain ⟨_, _, _, ⟨⟨_, _, _, isLoop, -⟩, -⟩, -⟩ := counts.form
    have isStep : IsStep grade converted.shape := by
      rw [shape_of_kind isLoop]
      exact ⟨rfl, fun _ => rfl⟩
    have below : converted ≠ Term.swap term.ref converted whole := fun same => by
      rw [← same, isLoop] at isUnitSwapped
      cases isUnitSwapped
    refine ⟨changed, isProgram, (becomes.sort_eq onceSwapped isConverted below).trans isUnitSwapped,
      fun tight => becomes.upholds onceSwapped isConverted below swapped.upholds isStep ?_ ?_
      fun other isNew => ?_⟩
    · rw [shape_of_kind isLoop]
      rfl
    · -- A loop is no declaration.
      rintro rfl holder inside initializers condition incrementors body isHolder
      have formed := ((upholds_iff_of_kind isHolder).1 (upholds_of_mem swapped.upholds inside)).1
      have isDeclaration : Shape.isDeclaration converted.shape = true := formed.1.1
      rw [shape_of_kind isLoop] at isDeclaration
      cases isDeclaration
    · rcases List.mem_append.1 isNew with isStatement | isRest
      · obtain rfl := List.mem_singleton.1 isStatement
        have inside := becomes.mem_subterms onceSwapped isConverted isNew
        refine opens.upholds present each ?_ fun formed => ?_
        · exact allowsName (by rintro rfl; cases opens)
        · exact all_map_iff.2 ((all_map_iff.1 (tight formed)).subterm inside)
      · obtain rfl := List.mem_singleton.1 isRest
        exact ⟨upholds_of_mem swapped.upholds isConverted, isStep⟩

end Context

end Refactory
