import Refactory.Proofs.Refactoring.Recomposing

/-!
# Splits

Where a split is offered, a run of two calls or more takes the place of a call, on what the call was
on, and its functions keep the bindings of what was in the lambda (`Tree.IsSplit`). Nothing is lost:
the functions of a split filter are the leaves of the conjunction, left to right, so that they hold
together where the conjunction does (`Tree.IsFactored`), and those of a split projection, one for
each layer, give the body of the lambda when they are applied one after the other
(`Tree.IsComposed`). Both are taken together in `Context.splitting_keeps_bindings`.
-/
namespace Refactory

namespace Term

variable {α : Type}

mutual

/-- The leaves of a tree of conjunctions, left to right. -/
def leaves : Term α → List (Option (Term α))
  | .node _ (.binary .and left right) => leavesOf left ++ leavesOf right
  | term => [some term]

/-- The leaves of an optional tree of conjunctions. -/
def leavesOf : Option (Term α) → List (Option (Term α))
  | none => [none]
  | some term => leaves term

end

/-- An expression without one pair of parentheses. -/
def unwrapped : Option (Term α) → Option (Term α)
  | some (.node _ (.paren inner)) => inner
  | child => child

mutual

/-- Whether a condition holds when we are told of all expressions but conjunctions and parentheses
whether they do. -/
def truth (valuation : Option (Term α) → Bool) : Term α → Bool
  | .node _ (.binary .and left right) => truthOf valuation left && truthOf valuation right
  | .node _ (.paren inner) => truthOf valuation inner
  | term => valuation (some term)

/-- Whether an optional condition holds. -/
def truthOf (valuation : Option (Term α) → Bool) : Option (Term α) → Bool
  | none => valuation none
  | some term => truth valuation term

end

/-- What a lambda gives. -/
def result? (function : Term α) : Option (Term α) :=
  match function.kind with
  | .lambda _ body _ => body
  | _ => none

theorem IsLambda.result? {param : Shape} {body : Option (Term α)} {function : Term α}
    (isLambda : IsLambda param body function) : function.result? = body := by
  obtain ⟨lambda, copy, parenthesized, -, rfl⟩ := isLambda
  rfl

/-- What holds of a child holds of each term in a position for one. -/
theorem optional_of_parts {property : Option (Term α) → Prop} {form : Form α}
    {child : Option (Term α)}
    (ofNone : property none) (below : ∀ term ∈ parts form, property (some term))
    (held : ∀ term ∈ child, term ∈ parts form) :
    property child := by
  cases child with
  | none => exact ofNone
  | some term => exact below term (held term rfl)

/-- The operands of a conjunction are its leaves without one pair of parentheses. -/
theorem conjunctsOf_eq
    (child : Option (Term α)) : conjunctsOf child = (leavesOf child).map unwrapped := by
  cases child with
  | none => rfl
  | some term =>
    rw [conjunctsOf, leavesOf]
    induction term using Term.induction with
    | step note form ih =>
      have below {child : Option (Term α)} (held : ∀ term ∈ child, term ∈ parts form) :
          conjunctsOf child = (leavesOf child).map unwrapped := @optional_of_parts _ (fun child =>
        conjunctsOf child = (leavesOf child).map unwrapped) _ _ rfl ih held
      rw [conjuncts.eq_def, leaves.eq_def]
      cases form
      case binary op left right =>
        cases op
        case and =>
          dsimp only
          rw [List.map_append, below (by simp +contextual [parts]),
            below (by simp +contextual [parts])]
        all_goals rfl
      all_goals rfl

section

variable (valuation : Option (Term α) → Bool)

/-- A condition holds when all operands of the conjunction do. -/
theorem all_conjunctsOf (child : Option (Term α)) :
    (conjunctsOf child).all (truthOf valuation) = truthOf valuation child := by
  cases child with
  | none => simp [conjunctsOf]
  | some term =>
    rw [conjunctsOf, truthOf]
    induction term using Term.induction with
    | step note form ih =>
      have below {child : Option (Term α)} (held : ∀ term ∈ child, term ∈ parts form) :
          (conjunctsOf child).all (truthOf valuation) = truthOf valuation child :=
        @optional_of_parts _ (fun child => (conjunctsOf child).all (truthOf valuation)
        = truthOf valuation child) _ _ (by simp [conjunctsOf]) ih held
      rw [conjuncts.eq_def]
      split
      · rename_i left right same
        cases same
        rw [List.all_append, below (by simp +contextual [parts]),
          below (by simp +contextual [parts]), truth]
      · rename_i inner same
        cases same
        simp [truth]
      · simp [truthOf]

/-- Parentheses around a condition do not count. -/
theorem truthOf_bareOf
    (child : Option (Term α)) : truthOf valuation (bareOf child) = truthOf valuation child := by
  cases child with
  | none => rfl
  | some term =>
    rw [bareOf, truthOf]
    induction term using Term.induction with
    | step note form ih =>
      cases form
      case paren inner =>
        rw [bare, truth]
        exact @optional_of_parts _ (fun child => truthOf valuation (bareOf child)
          = truthOf valuation child) _ _ rfl ih (by simp +contextual [parts])
      all_goals rfl

end

/-- The names in the operands of a conjunction are those in the conjunction. -/
theorem exists_operand_of_ident {term part : Term α} {name : String} (inside : part ∈ term.subterms)
    (isName : part.kind = .ident name) :
    ∃ operand, some operand ∈ term.conjuncts ∧ part ∈ operand.subterms := by
  induction term using Term.induction with
  | step note form ih =>
    rw [conjuncts.eq_def]
    split
    · rename_i left right same
      cases same
      rw [subterms_node] at inside
      rcases List.mem_cons.1 inside with rfl | inside
      · cases isName
      · obtain ⟨child, held, inside⟩ := List.mem_flatMap.1 inside
        obtain ⟨operand, among, inOperand⟩ := ih child held inside
        refine ⟨operand, List.mem_append.2 ?_, inOperand⟩
        have side : left = some child ∨ right = some child := by simpa [parts] using held
        rcases side with rfl | rfl
        · exact .inl among
        · exact .inr among
    · rename_i inner same
      cases same
      rw [subterms_node] at inside
      rcases List.mem_cons.1 inside with rfl | inside
      · cases isName
      · obtain ⟨child, held, below⟩ := List.mem_flatMap.1 inside
        obtain rfl : inner = some child := by simpa [parts] using held
        exact ⟨child, .head _, below⟩
    · exact ⟨_, .head _, inside⟩

end Term

namespace Tree

open Term

/-- A run of two calls or more has taken the place of a call with a lambda, on what the call was on,
and the functions that the calls pass keep the bindings of what was in the lambda. -/
structure IsSplit (tree : Tree) (split : LambdaCall) (functions : List Outline)
    (result : Tree) : Prop where
  /-- There are at least two functions. -/
  several : 2 ≤ functions.length
  /-- A run that passes them stands in the place of the call. -/
  placed : ∃ anchor run calls,
    result.outline result.root = Term.swap split.call run (tree.outline tree.root) ∧
      anchor.kind
        = .member (tree.outline? split.called.receiver) split.called.name split.called.conditional ∧
      IsRun split.called.name anchor (run :: calls) functions.reverse
  /-- The functions keep the bindings. -/
  keeps : KeepsBindings tree result split.lambda.param functions

/-- The functions of a split filter are the leaves of its conjunction, so that they hold together
where the conjunction does, and no name is lost. -/
structure IsFactored (tree result : Tree) (body : Ref) (functions : List Outline) : Prop where
  /-- The functions give the leaves of the conjunction without one pair of parentheses, left to
  right. -/
  leaves : functions.map result? = (leavesOf (bareOf (tree.outline? body))).map unwrapped
  /-- All functions hold where the conjunction does. -/
  truth : ∀ valuation, (functions.all fun function => truthOf valuation function.result?)
    = truthOf valuation (tree.outline? body)
  /-- Every name is still there. -/
  complete : ∀ ref ∈ tree.attached, ∀ name, tree.kind ref = .ident name →
    ref ∈ result.attached ∧ result.kind ref = .ident name

/-- The functions of a split projection, one for each layer of its composition, give the body of the
lambda when they are applied one after the other, and no name is lost but that of the parameter. -/
structure IsComposed (tree result : Tree) (split : LambdaCall)
    (functions : List Outline) : Prop where
  /-- There is a function for each layer. -/
  layers : ∃ layers, tree.splitLayers? (Model.build tree) split = some layers ∧
    functions.length = layers.length
  /-- Applied to the parameter one after the other, they give the body without parentheses around
  it. -/
  composition : functions.foldl (fun value function => result.applied function value)
      (.node () (.ident split.lambda.name))
    = (tree.outline (tree.stripParens split.lambda.body)).shape
  /-- Every name that does not refer to the parameter is still there. -/
  complete : ∀ ref ∈ tree.attached, ∀ name, tree.kind ref = .ident name →
    (Model.build tree).declarationOf ref ≠ some split.lambda.param →
      ref ∈ result.attached ∧ result.kind ref = .ident name

end Tree

namespace LambdaCall

open Term Refactory.Tree

variable {split : LambdaCall} {tree after : Tree} {whole call param anchor run part : Outline}
  {receiver body : Option Outline} {calls functions : List Outline} {name : String}

/-- The names in a call with a simple lambda are in its receiver and in the body. -/
theorem Stands.cases_of_ident {part : Outline} {name : String}
    (stands : split.Stands tree call receiver body param) (inPlace : call.All InPlace)
    (inside : part ∈ call.subterms) (isName : part.kind = .ident name) :
    part ∈ receiver.toList.flatMap subterms ∨ part ∈ body.toList.flatMap subterms := by
  obtain ⟨access, argument, lambda, form, formAccess, formArgument, parenthesized, formLambda⟩ :=
    stands.formed
  have below {term : Outline} (inside : part ∈ term.subterms) (differ : term.kind ≠ .ident name) :
      ∃ child ∈ term.children, part ∈ child.subterms := by
    rw [subterms_eq] at inside
    rcases List.mem_cons.1 inside with rfl | inside
    · exact absurd isName differ
    · exact List.mem_flatMap.1 inside
  obtain ⟨child, held, inside⟩ := below inside (by simp [form])
  have isChild : child = access ∨ child = argument := by
    simpa [Term.children, form, parts] using held
  rcases isChild with rfl | rfl
  · obtain ⟨term, held, inside⟩ := below inside (by simp [formAccess])
    have held : term ∈ receiver := by simpa [Term.children, formAccess, parts] using held
    exact .inl (List.mem_flatMap.2 ⟨term, Option.mem_toList.2 held, inside⟩)
  · obtain ⟨child, heldLambda, inside⟩ := below inside (by simp [formArgument])
    obtain rfl : child = lambda := by simpa [Term.children, formArgument, parts] using heldLambda
    obtain ⟨child, heldChild, inside⟩ := below inside (by simp [formLambda])
    have isChild : child = param ∨ child ∈ body := by
      simpa [Term.children, formLambda, parts] using heldChild
    rcases isChild with rfl | held
    · obtain ⟨type, isParam⟩ := stands.exists_param
      have inPlaceParam := ((inPlace.child held).child heldLambda).child heldChild
      have sort := sort_of_mem_param inPlaceParam (by simp [isParam, Kind.sort]) inside
      simp [isName, Kind.sort] at sort
    · exact .inr (List.mem_flatMap.2 ⟨child, Option.mem_toList.2 held, inside⟩)

/-- A name of the call is in the run if it is in a function wherever it is in the body. -/
theorem Stands.mem_run {body : Outline} (stands : split.Stands tree call receiver (some body) param)
    (isAnchor : anchor.kind = .member receiver split.called.name split.called.conditional)
    (isRun : IsRun split.called.name anchor (run :: calls) functions.reverse)
    (inPlace : call.All InPlace) (isName : part.kind = .ident name)
    (inFunction : part ∈ body.subterms → ∃ function ∈ functions, part ∈ function.subterms)
    (inside : part ∈ call.subterms) : part ∈ run.subterms := by
  obtain ⟨anchorInside, functionsInside⟩ := isRun.parts_inside rfl
  rcases stands.cases_of_ident inPlace inside isName with inReceiver | inBody
  · obtain ⟨term, held, below⟩ := List.mem_flatMap.1 inReceiver
    have heldAnchor : term ∈ anchor.children := by
      simp [Term.children, isAnchor, parts, Option.mem_toList.1 held]
    exact subterms_trans anchorInside (mem_subterms_of_child heldAnchor below)
  · obtain ⟨function, member, below⟩ := inFunction (by simpa using inBody)
    exact subterms_trans (functionsInside function (List.mem_reverse.2 member)) below

/-- A name is still there if it is in the run wherever it was in the call. -/
theorem ident_stays {ref : Ref} (unit : tree.IsUnit whole) (within : call ∈ whole.subterms)
    (program : after.IsProgram (Term.swap call.ref run whole)) (attached : ref ∈ tree.attached)
    (isName : tree.kind ref = .ident name) (inRun : ∀ part ∈ call.subterms, part.ref = ref →
      part.kind = .ident name → part ∈ run.subterms) :
    ref ∈ after.attached ∧ after.kind ref = .ident name := by
  rw [unit.attached] at attached
  obtain ⟨part, inside, rfl⟩ := mem_refs.1 attached
  have depicts := (unit.stands.shows inside).depicts
  rw [isName] at depicts
  have isIdent := depicts.ident
  have stays : part ∈ (Term.swap call.ref run whole).subterms := by
    by_cases inCall : part ∈ call.subterms
    · exact subterms_trans (mem_subterms_swap unit.stands.once within)
        (inRun part inCall rfl isIdent)
    · refine mem_subterms_swap_of_disjoint unit.stands.once inside within fun ref inPart inCall' =>
        inCall ?_
      rw [refs_of_ident isIdent, List.mem_singleton] at inPart
      obtain ⟨other, isOther, same⟩ := mem_refs.1 inCall'
      rwa [← subterm_unique unit.stands.once (subterms_trans within isOther) inside
        (same.trans inPart)]
  have depictsAfter := (program.stands.shows stays).depicts
  rw [isIdent] at depictsAfter
  exact ⟨program.attached ▸ mem_refs.2 ⟨part, stays, rfl⟩, depictsAfter.of_ident⟩

/-- A run that passes functions that were moved out of the lambda is what a split comes to. -/
theorem Stands.isSplit {body : Outline} (stands : split.Stands tree call receiver (some body) param)
    (unit : tree.IsUnit whole) (program : after.IsProgram (Term.swap call.ref run whole))
    (isAnchor : anchor.kind = .member receiver split.called.name split.called.conditional)
    (isRun : IsRun split.called.name anchor (run :: calls) functions.reverse)
    (several : 2 ≤ functions.length) (keeps : KeepsBindings tree after param.ref functions) :
    IsSplit tree split functions after := by
  have isReceiver : tree.outline? split.called.receiver = receiver := by
    rw [stands.isReceiver]
    exact outline?_refOf fun term held =>
      stands.standing.each term (by simp [Option.mem_def.1 held])
  refine ⟨several, ⟨anchor, run, calls, ?_, ?_, isRun⟩, stands.isParam ▸ keeps⟩
  · rw [program.outline_root, unit.outline_root, stands.isCall]
  · rw [isReceiver, isAnchor]

/-- Splitting a filter gives a run over the leaves of its conjunction. -/
theorem Stands.isSplit_of_operands {operands : List Ref}
    (stands : split.Stands tree call receiver body param) (unit : tree.IsUnit whole)
    (within : call ∈ whole.subterms) (isOperands : tree.splitOperands? split = some operands) :
    ∃ after functions, split.splitInto (operands.map (split.lambdaOver ·)) tree = .ok ((), after) ∧
      IsSplit tree split functions after ∧ IsFactored tree after split.lambda.body functions := by
  obtain ⟨inner, after, anchor, run, calls, made, strips, shown, rfl, several, changed, program,
    isAnchor, isRun, areMade, apart, -⟩ := stands.splitOperands unit.toIsProgram within isOperands
  have standsBody := (StandsAll.append_iff.1 (StandsAll.append_iff.1 stands.standing).2.1).1
  have inPlace := unit.inPlace.subterm within
  obtain ⟨type, isParam⟩ := stands.exists_param
  obtain ⟨inner, left, right, rfl, isAnd⟩ := exists_of_two_le (by simpa using several)
  have isBare := (bareOf_eq_of_stripParens standsBody shown strips).symm
  obtain ⟨body, rfl, exposed⟩ := exposed_of_bareOf isBare.symm
  obtain ⟨bodyInCall, -⟩ := stands.inside
  have inPlaceInner := inPlace.subterm (subterms_trans bodyInCall exposed.mem_subterms)
  have sortInner : inner.kind.sort = .expression := by rw [isAnd]; rfl
  have areLambdas : List.Forall₂ (IsLambda param.shape) inner.conjuncts made :=
    areMade.imp fun _ _ isOver => isOver.isLambda
  have results : made.map result? = conjunctsOf (some inner) := by
    refine (List.forall₂_eq_eq_eq ▸
      List.forall₂_map_right_iff.2 (areLambdas.imp fun _ _ isLambda => ?_)).symm
    exact isLambda.result?.symm
  have isBody : tree.outline? split.lambda.body = some body := by
    rw [stands.isBody]
    refine outline?_refOf fun term held => ?_
    obtain rfl := Option.some.inj held
    exact standsBody.each body (.head _)
  have keeps : KeepsBindings tree after param.ref made := by
    refine stands.keepsBindings unit within isAnchor isRun isParam
      (fun function member => ?_) program apart (sort_of_bareOf isBare.symm sortInner)
    obtain ⟨operand, among, isLambda⟩ := exists_of_mem_right areLambdas member
    refine .alone (fun term held => ?_) isLambda
    obtain rfl := Option.mem_def.1 held
    exact ⟨exposed.trans (exposed_of_conjuncts among),
      sort_of_conjuncts inPlaceInner sortInner among⟩
  have length : made.length = (conjunctsOf (some inner)).length := by
    rw [← results, List.length_map]
  refine ⟨after, made, changed, stands.isSplit unit program isAnchor isRun ?_ keeps, ?_⟩
  · rwa [length, ← List.length_map (f := refOf)]
  refine ⟨?_, fun valuation => ?_, fun ref attached name isName => ?_⟩
  · rw [results, isBody, ← isBare, conjunctsOf_eq]
  · rw [isBody, ← truthOf_bareOf, ← isBare, ← all_conjunctsOf, ← results, List.all_map]
    rfl
  · refine ident_stays unit within program attached isName fun part inCall _ isIdent => ?_
    refine stands.mem_run isAnchor isRun inPlace isIdent (fun inBody => ?_) inCall
    have inInner := mem_subterms_of_bareOf isBare.symm inBody isIdent
    obtain ⟨operand, among, below⟩ := exists_operand_of_ident inInner isIdent
    obtain ⟨function, member, isLambda⟩ := exists_of_mem_right areLambdas.flip among
    refine ⟨function, member, ?_⟩
    obtain ⟨lambda, copy, parenthesized, -, rfl⟩ := isLambda
    exact mem_subterms_of_child (by simp [Term.children, Term.kind, parts]) below

/-- Splitting a projection gives a run over the layers of its composition. -/
theorem Stands.isSplit_of_layers {layers : List Layer}
    (stands : split.Stands tree call receiver body param) (unit : tree.IsUnit whole)
    (within : call ∈ whole.subterms)
    (isLayers : tree.splitLayers? (Model.build tree) split = some layers) :
    ∃ after functions, split.splitInto (split.layerFunctions layers) tree = .ok ((), after) ∧
      IsSplit tree split functions after ∧ IsComposed tree after split functions := by
  obtain ⟨symbol, inner, after, anchor, run, calls, made, declares, strips,
    finds, several, changed, program, isAnchor, isRun, composes, apart, -⟩ :=
    stands.splitLayers unit.toIsProgram within isLayers
  have standsBody := (StandsAll.append_iff.1 (StandsAll.append_iff.1 stands.standing).2.1).1
  have standsInner := finds.stands.each inner (.head _)
  have inPlace := unit.inPlace.subterm within
  obtain ⟨type, isParam⟩ := stands.exists_param
  have isBare : bareOf body = some inner := bareOf_eq_of_stripParens standsBody (fun term held => by
    obtain rfl := Option.some.inj held
    exact standsInner.shown) strips
  obtain ⟨body, rfl, exposed⟩ := exposed_of_bareOf isBare
  obtain ⟨bodyInCall, paramInCall⟩ := stands.inside
  have innerWhole := subterms_trans within (subterms_trans bodyInCall exposed.mem_subterms)
  rw [stands.isParam] at declares
  have rebinds := stands.rebinds unit within program isAnchor isRun declares isBare composes apart
  have length := composes.length_eq
  have isNamed : (tree.kind param.ref).declaredName? = some split.lambda.name := by
    rw [(unit.stands.shows (subterms_trans within paramInCall)).declaredName?, isParam]
    rfl
  refine ⟨after, made, changed,
    stands.isSplit unit program isAnchor isRun (length ▸ several) rebinds.keeps,
    ⟨layers, isLayers, length.symm⟩, ?_, fun ref attached name isName notParam => ?_⟩
  · -- The functions are applied in the tree afterwards.
    obtain ⟨fills, apply, composed⟩ :=
      composes.appliesAs rebinds isParam (List.Subset.refl made) innerWhole
    rw [foldl_applied apply rebinds.unitAfter rebinds.within, composed, stands.isBody, strips,
      standsInner.outline]
    refine shapeNaming_eq_shape fun part inside refers => ?_
    have inTree := subterms_trans innerWhole inside
    obtain ⟨_, -, isSymbol⟩ := (unit.stands.shows inTree).exists_ident_of_isAt refers
    obtain ⟨other, isOther, same, isName⟩ := unit.exists_ident_of_symbolOf isNamed declares isSymbol
    rwa [subterm_unique unit.stands.once isOther inTree same] at isName
  · refine ident_stays unit within program attached isName fun part inCall same isIdent => ?_
    refine stands.mem_run isAnchor isRun inPlace isIdent (fun inBody => ?_) inCall
    have inInner := mem_subterms_of_bareOf isBare inBody isIdent
    refine (composes.cases_of_name unit innerWhole inInner (.inl isIdent)).resolve_left
      fun refers => ?_
    rw [unit.isAt_iff declares (subterms_trans innerWhole inInner), same] at refers
    exact notParam (stands.isParam ▸ refers.2)

end LambdaCall

namespace Context

open Term Refactory.Tree

variable {tree : Tree} {settings : Settings} {whole : Outline} {ref : Ref}

/-- Splitting a filter around a node factors the conjunction. -/
theorem splitFilter_isSplit (unit : tree.IsUnit whole) (member : ref ∈ whole.refs) :
    Attempt.Gives ((ofTree tree settings).splitFilter ref) (Offers fun result =>
      ∃ split ∈ (ofTree tree settings).lambdaCalls "Where" ref, ∃ functions, IsSplit tree
          split functions result ∧ IsFactored tree result split.lambda.body functions) := by
  rw [splitFilter]
  split
  · exact Attempt.refuse_offers _
  · rename_i split operands found
    obtain ⟨other, isCall, isSplit⟩ := List.exists_of_findSome?_eq_some found
    obtain ⟨operands', isOperands, same⟩ := Option.map_eq_some_iff.1 isSplit
    obtain ⟨rfl, rfl⟩ := Prod.mk.inj same
    obtain ⟨call, within, -, receiver, body, param, stands⟩ :=
      @stands_of_mem_lambdaCalls (ofTree tree settings) whole ref _ _ unit.toIsProgram member isCall
    obtain ⟨after, functions, changed, isSplit, isFactored⟩ :=
      stands.isSplit_of_operands unit within isOperands
    refine (offer_of_eq changed).mono fun offered isOffered action isAction => ?_
    obtain rfl := Option.some.inj (isAction.symm.trans isOffered)
    exact ⟨_, isCall, functions, isSplit, isFactored⟩

/-- Splitting a projection around a node takes the composition apart. -/
theorem splitProjection_isSplit (unit : tree.IsUnit whole) (member : ref ∈ whole.refs) :
    Attempt.Gives ((ofTree tree settings).splitProjection ref) (Offers fun result =>
      ∃ split ∈ (ofTree tree settings).lambdaCalls "Select" ref, ∃ functions,
        IsSplit tree split functions result ∧ IsComposed tree result split functions) := by
  rw [splitProjection]
  split
  · exact Attempt.refuse_offers _
  · rename_i split layers found
    obtain ⟨other, isCall, isSplit⟩ := List.exists_of_findSome?_eq_some found
    obtain ⟨layers', isLayers, same⟩ := Option.map_eq_some_iff.1 isSplit
    obtain ⟨rfl, rfl⟩ := Prod.mk.inj same
    obtain ⟨call, within, -, receiver, body, param, stands⟩ :=
      @stands_of_mem_lambdaCalls (ofTree tree settings) whole ref _ _ unit.toIsProgram member isCall
    obtain ⟨after, functions, changed, isSplit, isComposed⟩ :=
      stands.isSplit_of_layers unit within isLayers
    refine (offer_of_eq changed).mono fun offered isOffered action isAction => ?_
    obtain rfl := Option.some.inj (isAction.symm.trans isOffered)
    exact ⟨_, isCall, functions, isSplit, isComposed⟩

/-- Splits keep every binding and lose nothing. Wherever one is offered at a node of a program, a
run of calls comes in the place of the call and its functions keep the bindings of the program,
names that are put into them included. Those of a split filter give the leaves of its conjunction,
one after the other, and hold together where the conjunction holds; those of a split projection are
made of the layers of its composition and give the body of the lambda when they are applied one
after the other. -/
theorem splitting_keeps_bindings {tree : Tree} {settings : Settings} {ref : Ref} {action : Action}
    (wellFormed : tree.WellFormed) (sorted : tree.IsSorted) (attached : ref ∈ tree.attached) :
    ((ofTree tree settings).offered? .splitWhere ref = .ok (some action) →
      ∃ split ∈ (ofTree tree settings).lambdaCalls "Where" ref, ∃ functions,
        IsSplit tree split functions action.result ∧
          IsFactored tree action.result split.lambda.body functions) ∧
    ((ofTree tree settings).offered? .splitSelect ref = .ok (some action) →
      ∃ split ∈ (ofTree tree settings).lambdaCalls "Select" ref, ∃ functions, IsSplit tree
          split functions action.result ∧ IsComposed tree action.result split functions) := by
  obtain ⟨whole, unit⟩ := sorted.exists_isUnit wellFormed
  rw [unit.attached] at attached
  refine ⟨fun offered => ?_, fun offered => ?_⟩
  · have gives : Attempt.Gives ((ofTree tree settings).attempt .splitWhere ref) _ :=
      splitFilter_isSplit unit attached
    exact of_offered gives.yields offered
  · have gives : Attempt.Gives ((ofTree tree settings).attempt .splitSelect ref) _ :=
      splitProjection_isSplit unit attached
    exact of_offered gives.yields offered

/-- A conjunction with a lambda inside, and a composition with a named function, one that is passed
a lambda over the same name besides, and one around both. -/
theorem splitting_keeps_bindings_of_nested : ∃ tree filter projection, Tree.parse
    0 "q.Where(x => (x.A && (xs.Any(y => x == y) && z)) && x.B).Select(x => f(g(h(x), x => x)));" =
    .ok tree ∧ (ofTree tree {}).offered? .splitWhere tree.root = .ok (some filter) ∧
      (ofTree tree {}).offered? .splitSelect tree.root = .ok (some projection) ∧
      (∃ split ∈ (ofTree tree {}).lambdaCalls "Where" tree.root, ∃ functions,
        IsSplit tree split functions filter.result ∧
        IsFactored tree filter.result split.lambda.body functions) ∧
      ∃ split ∈ (ofTree tree {}).lambdaCalls "Select" tree.root, ∃ functions,
        IsSplit tree split functions projection.result ∧
          IsComposed tree projection.result split functions := by
  have facts : (Tree.parse 0 ("q.Where(x => (x.A && (xs.Any(y => x == y) && z)) && x.B)" ++
      ".Select(x => f(g(h(x), x => x)));")).toOption.any (fun tree => tree.root ∈ tree.attached &&
        ((ofTree tree {}).offered? .splitWhere tree.root).toOption.any (·.isSome) &&
        ((ofTree tree {}).offered? .splitSelect tree.root).toOption.any (·.isSome)) = true := by
    decide +kernel
  obtain ⟨tree, parsed, facts⟩ := exists_of_any facts
  simp only [Bool.and_eq_true, decide_eq_true_eq] at facts
  obtain ⟨⟨attached, someFilter⟩, someProjection⟩ := facts
  obtain ⟨filter, isFilter, someFilter⟩ := (Option.any_eq_true _ _).1 someFilter
  obtain ⟨filter, rfl⟩ := Option.isSome_iff_exists.1 someFilter
  obtain ⟨projection, isProjection, someProjection⟩ := (Option.any_eq_true _ _).1 someProjection
  obtain ⟨projection, rfl⟩ := Option.isSome_iff_exists.1 someProjection
  have wellFormed := wellFormed_of_parse parsed
  have sorted := isSorted_of_parse parsed
  have offeredFilter := eq_ok_of_toOption isFilter
  have offeredProjection := eq_ok_of_toOption isProjection
  exact ⟨tree, filter, projection, parsed, offeredFilter, offeredProjection,
    (splitting_keeps_bindings wellFormed sorted attached).1 offeredFilter,
    (splitting_keeps_bindings wellFormed sorted attached).2 offeredProjection⟩

end Context

end Refactory
