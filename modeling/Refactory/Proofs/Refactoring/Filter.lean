import Refactory.Proofs.Refactoring.Preservation
import Refactory.Proofs.Refactoring.Runs

/-!
# Splitting and merging filters

A statement with one filter, over a lambda with a conjunction, is split into a run of filters, one
over each operand (`Context.splitFilter_of_only`). Filters over lambdas that have the same parameter
are merged into a filter over the conjunction of what the lambdas have (`Context.merge_of_lambdas`).
So merging what was split gives the filter back, where the operands stand in parentheses just where
these are wanted (`Context.mergeWhere_of_splitWhere`).
-/
namespace Refactory

open Term Refactory.Tree

variable {body : Outline}

/-- A call of a method on a receiver with a lambda of one parameter without parentheses. -/
def Shape.callOver (receiver : Option Shape) (method : String) (conditional : Bool) (name : String)
    (body : Shape) : Shape :=
  .node () (.invoke (some (.node () (.member receiver method conditional))) [.node ()
    (.argument .plain (some (.node () (.lambda [.node () (.param none name)] (some body) false))))])

namespace Term

variable {α : Type} {method name : String} {conditional : Bool}

theorem exists_of_shape {term : Term α} {form : Form Unit} (same : term.shape = .node () form) :
    ∃ note inner, term = .node note inner ∧ mapForm (fun _ => ()) inner = form := by
  rcases term with ⟨note, inner⟩
  rw [shape_node] at same
  exact ⟨note, inner, rfl, (Term.node.inj same).2⟩

/-- A term has the shape of a parameter without a type when it is one. -/
theorem exists_of_param {term : Term α} (isParam : term.shape = .node () (.param none name)) :
    ∃ note, term = .node note (.param none name) := by
  obtain ⟨note, form, rfl, same⟩ := exists_of_shape isParam
  cases form <;> simp at same
  obtain ⟨rfl, rfl⟩ := same
  exact ⟨note, rfl⟩

/-- A term has the shape of a call with a lambda when it is one. -/
theorem exists_of_callOver {call : Term α} {receiver : Option Shape} {body : Shape}
    (isCall : call.shape = Shape.callOver receiver method conditional name body) :
    ∃ (place access argument lambda param : α) (target : Option (Term α)) (inner : Term α),
      call = .node place (.invoke (some (.node access (.member target method conditional)))
        [.node argument (.argument .plain
          (some (.node lambda (.lambda [.node param (.param none name)] (some inner) false))))]) ∧
      target.map shape = receiver ∧ inner.shape = body := by
  obtain ⟨place, form, rfl, isInvoke⟩ := exists_of_shape isCall
  cases form <;> simp [Option.map_eq_some_iff, List.map_eq_singleton_iff] at isInvoke
  obtain ⟨⟨callee, rfl, isAccess⟩, argument, rfl, isArgument⟩ := isInvoke
  obtain ⟨access, form, rfl, isMember⟩ := exists_of_shape isAccess
  obtain ⟨argument, form', rfl, isArgument⟩ := exists_of_shape isArgument
  cases form <;> simp at isMember
  cases form' <;> simp [Option.map_eq_some_iff] at isArgument
  obtain ⟨rfl, rfl, rfl⟩ := isMember
  obtain ⟨rfl, function, rfl, isFunction⟩ := isArgument
  obtain ⟨lambda, form, rfl, isLambda⟩ := exists_of_shape isFunction
  cases form <;> simp [Option.map_eq_some_iff, List.map_eq_singleton_iff] at isLambda
  obtain ⟨⟨param, rfl, isParam⟩, ⟨inner, rfl, rfl⟩, rfl⟩ := isLambda
  obtain ⟨param, rfl⟩ := exists_of_param isParam
  exact ⟨place, access, argument, lambda, param, _, inner, rfl, rfl, rfl⟩

/-- The operands of a conjunction in place are expressions. -/
theorem sort_of_conjuncts {term operand : Term α} (inPlace : term.All InPlace)
    (sort : term.kind.sort = .expression)
    (member : some operand ∈ term.conjuncts) : operand.kind.sort = .expression := by
  induction term using Term.induction with
  | step note form ih =>
    have side {child : Option (Term α)} (held : ∀ term ∈ child, term ∈ parts form)
        (fits : Fits (.one child) [.expression]) (member : some operand ∈ conjunctsOf child) :
        operand.kind.sort = .expression := by
      cases child with
      | none => cases List.mem_singleton.1 member
      | some term =>
        exact ih term (held term rfl) (inPlace.child (held term rfl))
          (List.mem_singleton.1 (fits_one.1 fits term rfl)) member
    have sorts := inPlace.here.sorts
    rw [conjuncts.eq_def] at member
    split at member
    · rename_i left right same
      cases same
      simp only [kind, Kind.slots, Kind.childSorts, List.forall₂_cons] at sorts
      rcases List.mem_append.1 member with member | member
      · exact side (by simp +contextual [parts]) sorts.1 member
      · exact side (by simp +contextual [parts]) sorts.2.1 member
    · rename_i inner same
      cases same
      simp only [kind, Kind.slots, Kind.childSorts, List.forall₂_cons] at sorts
      obtain rfl := List.mem_singleton.1 member
      exact List.mem_singleton.1 (fits_one.1 sorts.1 operand rfl)
    · cases List.mem_singleton.1 member
      exact sort

end Term

namespace Tree

variable {tree : Tree}

/-- A call with a simple lambda is found to be one. -/
theorem lambdaCall?_of_form {call access argument lambda param : Outline}
    {receiver type : Option Outline}
    {method name : String} {conditional parenthesized : Bool} (shown : call.All tree.Shows)
    (form : call.kind = .invoke (some access) [argument])
    (formArgument : argument.kind = .argument .plain (some lambda))
    (formAccess : access.kind = .member receiver method conditional)
    (formLambda : lambda.kind = .lambda [param] (some body) parenthesized)
    (isParam : param.kind = .param type name)
    (noBlock : ∀ statements, body.kind ≠ .block statements) : tree.lambdaCall? call.ref =
      some ⟨call.ref, ⟨access.ref, refOf receiver, method, conditional⟩,
        ⟨param.ref, name, body.ref, parenthesized⟩⟩ := by
  have isArgument : argument ∈ call.children := by simp [Term.children, form, parts]
  have isLambda : lambda ∈ argument.children := by simp [Term.children, formArgument, parts]
  have shownLambda := (shown.child isArgument).child isLambda
  simp [lambdaCall?, singleArgument?_of_passes shown ⟨_, _, form, formArgument⟩,
    simpleLambda?_of_form shownLambda formLambda isParam noBlock,
      calledMember?_of_form shown form formAccess]

/-- The operands of a conjunction that stands are those of the term, which does not stand in
parentheses. -/
theorem Stands.conjuncts {left right : Option Outline} (stands : tree.Stands body)
    (isAnd : body.kind = .binary .and left right) : tree.stripParens body.ref = body.ref ∧
      tree.conjuncts body.ref = body.conjuncts.map refOf := by
  have bare (inner : Option Shape) : body.shape.kind ≠ .paren inner := by
    rcases body with ⟨place, form⟩
    obtain rfl : form = _ := isAnd
    exact nofun
  have strips := stands.shown.here.stripParens_of_kind bare
  obtain ⟨inner, same, shown, conjuncts, -⟩ :=
    @conjuncts_find tree (some body) (StandsAll.singleton_iff.2 stands)
  have isBody : some body = inner :=
    eq_of_refOf_eq (by simpa using stands.shown) shown (strips.symm.trans same)
  subst isBody
  exact ⟨strips, conjuncts⟩

end Tree

namespace Context

variable {context : Context} {whole container call : Outline} {receiver : Option Outline}
  {conditional : Bool} {name : String}

/-- Where a filter over a conjunction is the only call of its kind in a statement, splitting at the
statement puts a run of filters over its operands in the place of the call. -/
theorem splitFilter_of_only {place access argument lambda param : Place}
    {left right : Option Outline} {parenthesized : Bool} (program : context.tree.IsProgram whole)
    (within : container ∈ whole.subterms) (isStatement : container.kind.isStatement)
    (only : container.subterms.filter (callsMethod "Where") = [call])
    (form : call = .node place (.invoke (some (.node access (.member receiver "Where" conditional)))
      [.node argument
        (.argument .plain (some (.node lambda (.lambda [.node param (.param none name)] (some body)
        parenthesized))))]))
    (isAnd : body.kind = .binary .and left right) :
    Attempt.Gives (context.splitFilter container.ref) fun offered =>
    ∃ action, offered = some action ∧
      ∃ anchor run calls made, action.result.IsProgram (Term.swap call.ref run whole) ∧
      anchor.kind = .member receiver "Where" conditional ∧
      IsRun "Where" anchor (run :: calls) made.reverse ∧
      List.Forall₂ (IsLambda (.node () (.param none name))) body.conjuncts made := by
  have inside : call ∈ container.subterms :=
    List.mem_of_mem_filter (p := callsMethod "Where") (by rw [only]; exact .head _)
  have inWhole := subterms_trans within inside
  have stands := program.stands.subterm inWhole
  set split : LambdaCall := ⟨call.ref, ⟨access.ref, refOf receiver, "Where", conditional⟩,
    ⟨param.ref, name, body.ref, parenthesized⟩⟩
  have isSplit : context.tree.lambdaCall? call.ref = some split := by
    have shown := stands.shown
    subst form
    exact lambdaCall?_of_form shown rfl rfl rfl rfl rfl fun statements isBlock => by
      rw [isAnd] at isBlock
      cases isBlock
  have parts :
      split.Stands context.tree call receiver (some body) (.node param (.param none name)) := by
    have standsParam : context.tree.Stands (.node param (.param none name)) :=
      stands.subterm (by rw [form]; simp [subterms_node, parts])
    have isParam := standsParam.shown.here.depicts.of_param
    subst form
    exact LambdaCall.stands_of_form stands rfl rfl rfl rfl ⟨_, isParam⟩ rfl rfl rfl rfl
  have standsBody : context.tree.Stands body := parts.standing.each body (by simp)
  obtain ⟨strips, conjuncts⟩ := standsBody.conjuncts isAnd
  have isOperands : context.tree.splitOperands? split = some (body.conjuncts.map refOf) := by
    simp [splitOperands?, split, conjuncts, two_le_length_conjuncts isAnd, Option.filter]
  obtain ⟨inner, after, anchor, run, calls, made, strips', shown, same, -, changed, isProgram,
    isAnchor, isRun, areForms, -⟩ :=
    parts.splitOperands program inWhole isOperands
  obtain rfl : inner = some body :=
    eq_of_refOf_eq shown (by simpa using standsBody.shown) (strips'.symm.trans strips)
  have found : (context.lambdaCalls "Where" container.ref).findSome? (fun split =>
      (split, ·) <$> context.tree.splitOperands? split) =
      some (split, body.conjuncts.map refOf) := by
    have isStatement : (context.tree.kind container.ref).isStatement :=
      (Kind.isStatement_of_skeleton (program.stands.shows within).depicts.skeleton).trans
      isStatement
    rw [lambdaCalls, statementOf_of_isStatement isStatement,
      (program.stands.subterm within).callsOf, only]
    simp [isSplit, isOperands]
  rw [splitFilter, found]
  refine (offer_of_eq changed).mono fun offered isOffered => ?_
  refine ⟨_, isOffered, anchor, run, calls, made, isProgram, isAnchor, isRun, areForms.imp ?_⟩
  rintro operand function ⟨place, copy, -, isParam, rfl⟩
  exact ⟨place, copy, parenthesized, isParam, rfl⟩

end Context

namespace Tree.IsUnit

variable {tree : Tree} {whole : Outline} {name : String} (unit : tree.IsUnit whole)

include unit

/-- The function of a lambda whose body does not declare the name of the parameter once more has the
body as it is for its own parameter, and captures nothing under that name. -/
theorem exists_function {written : Outline}
    (isLambda : IsLambda (.node () (.param none name)) (some body) written)
    (within : written ∈ whole.subterms) (sort : body.kind.sort = .expression)
    (undeclared : ∀ part ∈ body.subterms, part.kind.declaredName? ≠ some name) :
    ∃ function : Abstraction, function.IsOf (Model.build tree) written ∧ function.param = name ∧
      function.captures tree (Model.build tree) name = false ∧ function.Bears tree body ∧
      function.bodyShape tree (Model.build tree) name = body.shape := by
  obtain ⟨lambda, copy, parenthesized, isParam, isWritten⟩ := isLambda
  obtain ⟨param, rfl⟩ := exists_of_param isParam
  set declaration : Outline := .node param (.param none name)
  have form : written.kind = .lambda [declaration] (some body) parenthesized := by
    rw [isWritten]; rfl
  have heldBody : body ∈ written.children := by simp [Term.children, form, Term.parts]
  have heldParam : declaration ∈ written.children := by simp [Term.children, form, Term.parts]
  have standsBody : tree.Stands body :=
    (unit.stands.subterm within).subterm (child_mem_subterms heldBody)
  have withinParam : declaration ∈ whole.subterms := subterms_child within heldParam
  have declares : (tree.kind declaration.ref).declaredName? = some name :=
    (unit.stands.shows withinParam).declaredName?
  have inWhole {part : Outline} (inside : part ∈ body.subterms) : part ∈ whole.subterms :=
    subterms_trans within (mem_subterms_of_child heldBody inside)
  obtain ⟨symbol, isSymbol⟩ := unit.exists_symbol withinParam rfl
  have noBlock (statements : List Outline) : body.kind ≠ .block statements := fun isBlock => by
    rw [isBlock] at sort
    cases sort
  refine ⟨⟨name, .symbol symbol, body.ref⟩, ⟨declaration, body, none, parenthesized, symbol, form,
    rfl, noBlock, isSymbol, rfl, rfl⟩, rfl, ?_, ⟨rfl, standsBody.displays⟩, ?_⟩
  · rw [Abstraction.captures, standsBody.descendants, List.any_eq_false]
    intro ref member
    obtain ⟨part, inside, rfl⟩ := mem_refs.1 member
    have depicts := (standsBody.shows inside).depicts
    split
    · rename_i used isIdent
      have isName := (isIdent ▸ depicts).ident
      rw [Bool.and_eq_true, beq_iff_eq, Referent.isAt, isIdent]
      rintro ⟨rfl, other⟩
      rw [unit.symbolOf_of_lambda within form rfl undeclared inside isName, isSymbol] at other
      simp at other
    · rename_i type declared isParam
      obtain ⟨type, isParam, -⟩ := (isParam ▸ depicts).param
      have declaresOther := undeclared part inside
      rw [isParam] at declaresOther
      simpa [Kind.declaredName?] using declaresOther
    · exact Bool.false_ne_true
  · rw [Abstraction.bodyShape, standsBody.outline]
    refine shapeNaming_eq_shape fun part inside isAt => ?_
    have refers : (Model.build tree).symbolOf part.ref = some symbol := by
      rw [Referent.isAt] at isAt
      split at isAt
      · exact beq_iff_eq.1 isAt
      · cases isAt
    obtain ⟨other, within, same, isName⟩ := unit.exists_ident_of_symbolOf declares isSymbol refers
    rw [← subterm_unique unit.stands.once within (inWhole inside) same]
    exact isName

/-- So it is with the functions of a list of lambdas that have the same parameter. -/
theorem exists_functions {bodies lambdas : List Outline}
    (written : List.Forall₂ (IsLambda (.node () (.param none name))) (bodies.map some) lambdas)
    (within : ∀ lambda ∈ lambdas, lambda ∈ whole.subterms)
    (sorts : ∀ body ∈ bodies, body.kind.sort = .expression)
    (undeclared : ∀ body ∈ bodies, ∀ part ∈ body.subterms, part.kind.declaredName? ≠ some name) :
    ∃ functions : List Abstraction,
    List.Forall₂ (Abstraction.IsOf (Model.build tree)) functions lambdas ∧
      (∀ function ∈ functions, function.param = name ∧
        function.captures tree (Model.build tree) name = false ∧ ∃ body, function.Bears tree body) ∧
      functions.map (·.bodyShape tree (Model.build tree) name) = bodies.map Term.shape := by
  rw [List.forall₂_map_left_iff] at written
  induction written with
  | nil => exact ⟨[], .nil, nofun, rfl⟩
  | @cons body lambda bodies lambdas isLambda _ ih =>
    obtain ⟨function, isOf, isName, captures, bears, isShape⟩ :=
      unit.exists_function isLambda (within _ (.head _))
        (sorts body (.head _)) (undeclared body (.head _))
    obtain ⟨functions, areOf, keep, areShapes⟩ :=
      ih (fun other member => within other (.tail _ member))
        (fun other member => sorts other (.tail _ member)) fun other member =>
      undeclared other (.tail _ member)
    refine ⟨function :: functions, .cons isOf areOf, fun other member =>
      ?_, by simp [isShape, areShapes]⟩
    rcases List.mem_cons.1 member with rfl | member
    · exact ⟨isName, captures, body, bears⟩
    · exact keep other member

end Tree.IsUnit

namespace Context

/-- Where a run of filters over lambdas that have the same parameter has all the calls of its kind
in a statement, merging at the statement puts a filter over the conjunction of what the lambdas have
in the place of the run. -/
theorem merge_of_lambdas {context : Context} {whole container call inner anchor first : Outline}
    {receiver : Option Outline}
    {conditional : Bool} {name : String} {calls lambdas others : List Outline}
    (unit : context.tree.IsUnit whole)
    (isModel : context.model = Model.build context.tree) (within : container ∈ whole.subterms)
    (isStatement : container.kind.isStatement)
    (isAnchor : anchor.kind = .member receiver "Where" conditional)
    (noReceiver : ∀ term ∈ receiver, term.callsMethod "Where" = false)
    (run : IsRun "Where" anchor (call :: inner :: calls) lambdas)
    (all : container.subterms.filter (callsMethod "Where") = call :: inner :: calls)
    (written : List.Forall₂ (IsLambda (.node () (.param none name)))
      ((first :: others).map some) lambdas.reverse)
    (sorts : ∀ body ∈ first :: others, body.kind.sort = .expression)
    (undeclared : ∀ body ∈ first :: others, ∀ part ∈ body.subterms, part.kind.declaredName?
      ≠ some name) :
    Attempt.Gives (context.merge .filters container.ref) fun offered =>
    ∃ action, offered = some action ∧
      ∃ merged, action.result.IsProgram (Term.swap call.ref merged whole) ∧
      merged.shape = Shape.callOver (receiver.map Term.shape) "Where" conditional name
        (Shape.conjunction (Shape.operand first.shape)
          (others.map fun body => Shape.operand body.shape)) := by
  have inWhole {part : Outline} (member : part ∈ call :: inner :: calls) : part ∈ whole.subterms :=
    subterms_trans within (List.mem_of_mem_filter (p := callsMethod "Where") (all ▸ member))
  obtain ⟨functions, areOf, keep, areShapes⟩ := unit.exists_functions written (fun lambda member =>
    subterms_trans (inWhole (.head _))
      ((run.parts_inside rfl).2 lambda (List.mem_reverse.1 member))) sorts undeclared
  rw [← isModel] at areOf keep areShapes
  obtain ⟨predicate, predicates, rfl, isShape, areShapes⟩ := List.map_eq_cons_iff.1 areShapes
  have denote : CallRun.functionsOf? context.model context.settings.placeholder
      (Merging.filters.accepts context.model) 0
      ((call :: inner :: calls).reverse.map Term.ref) context.tree
      = (some (predicate :: predicates), context.tree) := CallRun.functionsOf?_of_lambdas
    (fun part member => unit.stands.shown.subterm (inWhole (List.mem_reverse.1 member)))
      (List.rel_reverse run.passes) areOf fun _ _ _ => rfl
  have isName : Attempt.Gives
      (context.mergedParameter context.tree ⟨call.ref, anchor.ref, predicate, predicates⟩)
      (· = name) := by
    obtain ⟨_, _, ⟨_, _, _, _, _, -, -, -, -, isReferent, -⟩, -, -⟩ :=
      List.forall₂_cons_left_iff.1 areOf
    have isParam := (keep predicate (.head _)).1
    have isFirst : (CallRun.mk call.ref anchor.ref predicate predicates).functions.find?
        (fun function => !function.referent.isSynthesized) = some predicate := by
      rw [CallRun.functions, List.find?_cons, isReferent]
      rfl
    refine (mergedParameter_of_kept isFirst fun other member => ?_).mono fun given isGiven =>
      isGiven.trans isParam
    rw [isParam]
    exact (keep other member).2.1
  refine (merge_of_isRun Merging.filters_combines unit.toIsProgram within isStatement isAnchor
    noReceiver run all denote
    isName).mono ?_
  rintro offered ⟨action, merged, isOffered, -, isProgram, place, argument, lambda, param, body,
    isBody, standsBody, rfl⟩
  refine ⟨action, isOffered, _, isProgram, ?_⟩
  obtain ⟨conjunction, after, made, -, -, shown, isConjunction⟩ :=
    @Abstraction.conjoin_shows context.tree context.model name
    predicate predicates fun function member => (keep function member).2.2
  replace made : Merging.filters.combine context.model name predicate predicates context.tree
    = (conjunction.ref, after) := made
  rw [made] at isBody standsBody
  obtain rfl : some conjunction = body := eq_of_refOf_eq (by simpa using shown)
    (fun term held => (standsBody.each term (by simpa using held)).shown) isBody
  have areOperands := congrArg (List.map Shape.operand) areShapes
  rw [List.map_map, List.map_map] at areOperands
  rcases anchor with ⟨access, form⟩
  obtain rfl : form = _ := isAnchor
  simp only [shape_node, mapForm, mapSome_unit, mapAll_unit, List.map_cons, List.map_nil,
    Option.map_some, Option.map_none, isConjunction, isShape]
  exact congrArg (fun others => Shape.callOver (receiver.map Term.shape) "Where" conditional name
    (Shape.conjunction (Shape.operand first.shape) others)) areOperands

/-- Where the only filter of a statement gave its place to a run of filters over expressions from
its body, merging at the statement puts a filter over their conjunction in the place of it. -/
theorem merge_of_splitFilter {tree after : Tree} {settings : Settings}
    {whole container call run anchor first : Outline} {receiver : Option Outline}
    {conditional : Bool} {name : String} {calls made others : List Outline}
    {place access argument lambda param : Place} (unit : tree.IsUnit whole)
    (within : container ∈ whole.subterms) (isStatement : container.kind.isStatement)
    (only : container.subterms.filter (callsMethod "Where") = [call])
    (form : call = .node place (.invoke (some (.node access (.member receiver "Where" conditional)))
      [.node argument (.argument .plain
        (some (.node lambda (.lambda [.node param (.param none name)] (some body) false))))]))
    (program : after.IsProgram (Term.swap call.ref run whole))
    (isAnchor : anchor.kind = .member receiver "Where" conditional)
    (isRun : IsRun "Where" anchor (run :: calls) made.reverse) (several : others ≠ [])
    (areMade : List.Forall₂ (IsLambda (.node () (.param none name)))
      ((first :: others).map some) made)
    (inBody : ∀ operand ∈ first :: others, operand ∈ body.subterms ∧
      operand.kind.sort = .expression)
    (undeclared : ∀ part ∈ body.subterms, part.kind.declaredName? ≠ some name) :
    Attempt.Gives ((ofTree after settings).merge .filters container.ref) fun offered =>
    ∃ action, offered = some action ∧
      ∃ merged, action.result.IsProgram (Term.swap call.ref merged whole) ∧
      merged.shape = Shape.callOver (receiver.map Term.shape) "Where" conditional name
        (Shape.conjunction (Shape.operand first.shape)
          (others.map fun body => Shape.operand body.shape)) := by
  have inside : call ∈ container.subterms :=
    List.mem_of_mem_filter (p := callsMethod "Where") (by rw [only]; exact .head _)
  have inWhole := subterms_trans within inside
  set access : Outline := .node access (.member receiver "Where" conditional)
  set passed : Outline :=
    .node argument (.argument .plain (some (.node lambda (.lambda [.node param (.param none name)]
    (some body) false))))
  have form : call.kind = .invoke (some access) [passed] := by rw [form]; rfl
  have heldPassed : passed ∈ call.children := by simp [form, Term.children, Term.parts]
  have bodyBelow : body ∈ passed.subterms := by
    simp [passed, subterms_node, Term.parts, self_mem_subterms]
  have inPlaceOperand {operand : Outline}
      (member : operand ∈ first :: others) : operand.All InPlace :=
    (((unit.inPlace.subterm inWhole).child heldPassed).subterm bodyBelow).subterm
    (inBody operand member).1
  -- The functions of the run are lambdas over the operands.
  have written : ∀ function ∈ made.reverse, ∃ operand ∈ first :: others,
      IsLambda (.node () (.param none name)) (some operand) function := fun function member =>
    exists_of_mem_right (List.forall₂_map_left_iff.1 areMade) (List.mem_reverse.1 member)
  obtain ⟨unit', within', isStatement', same, all, noReceiver⟩ :=
    unit.swap_only within isStatement only form rfl program
    isAnchor isRun (fun function member => by
      obtain ⟨operand, among, isLambda⟩ := written function member
      refine isLambda.all_inPlace (all_inPlace_bareParam name) fun term held => ?_
      cases held
      exact ⟨inPlaceOperand among, (inBody operand among).2⟩)
        fun function member part inFunction => by
      obtain ⟨operand, among, isLambda⟩ := written function member
      refine isLambda.callsMethod_eq_false (all_inPlace_bareParam name)
        (fun term held part inside => ?_) inFunction
      cases held
      exact callsMethod_of_only (unit.stands.subterm within).once only heldPassed
        (subterms_trans bodyBelow (subterms_trans (inBody operand among).1 inside))
  have length := isRun.length_eq
  rw [List.length_reverse, ← areMade.length_eq] at length
  obtain ⟨operand, others, rfl⟩ := List.exists_cons_of_ne_nil several
  obtain ⟨inner, calls, rfl⟩ :=
    List.exists_cons_of_length_pos (show 0 < calls.length by simp at length; omega)
  have merges := @merge_of_lambdas
    (ofTree after settings) _ _ _ _ _ _ _ _ _ _ _ _ unit' rfl within' isStatement' isAnchor
    noReceiver isRun all ((List.reverse_reverse made).symm ▸ areMade)
    (fun operand member => (inBody operand member).2) fun operand member part below =>
    undeclared part (subterms_trans (inBody operand member).1 below)
  rw [same] at merges
  refine merges.mono fun offered gives => ?_
  obtain ⟨action, isOffered, merged, isProgram, isShape⟩ := gives
  refine ⟨action, isOffered, merged, ?_, isShape⟩
  rw [← swap_swap_self unit.stands.once inWhole unit'.stands.once]
  exact isProgram

/-- Merging restores what splitting has taken apart: where a statement has one filter and this
passes a lambda over a conjunction of operands, with parentheses around those only that need
them, splitting is offered at the statement, merging is offered there in the result, and the
tree has its shape again in the end. The name of the parameter must not be declared once more in
the conjunction. -/
theorem mergeWhere_of_splitWhere {tree : Tree} {settings : Settings} {statement call : Ref}
    {receiver : Option Shape}
    {conditional : Bool} {name : String} {first : Shape} {others : List Shape}
    (wellFormed : tree.WellFormed) (sorted : tree.IsSorted) (attached : statement ∈ tree.attached)
    (isStatement : (tree.kind statement).isStatement)
    (only : tree.callsOf "Where" statement = [call])
    (isCall : (tree.outline call).shape =
      Shape.callOver receiver "Where" conditional name (Shape.conjunction first others))
    (several : others ≠ []) (factors : ∀ factor ∈ first :: others, factor.IsFactor)
    (undeclared : ∀ part ∈ (Shape.conjunction first others).subterms, part.kind.declaredName?
      ≠ some name) :
    ∃ split merge, (ofTree tree settings).offered? .splitWhere statement = .ok (some split) ∧
      (ofTree split.result settings).offered? .mergeWhere statement = .ok (some merge) ∧
      merge.result.shape = tree.shape := by
  obtain ⟨whole, unit⟩ := sorted.exists_isUnit wellFormed
  rw [unit.attached] at attached
  obtain ⟨container, within, rfl⟩ := mem_refs.1 attached
  have standsContainer := unit.stands.subterm within
  rw [Kind.isStatement_of_skeleton (unit.stands.shows within).depicts.skeleton] at isStatement
  rw [standsContainer.callsOf] at only
  obtain ⟨call, isOnly, rfl⟩ := List.map_eq_singleton_iff.1 only
  have inside : call ∈ container.subterms :=
    List.mem_of_mem_filter (p := callsMethod "Where") (by rw [isOnly]; exact .head _)
  rw [(standsContainer.subterm inside).outline] at isCall
  obtain ⟨place, access, argument, lambda, param, receiver, body, form, rfl, isBody⟩ :=
    exists_of_callOver isCall
  obtain ⟨left, right, isAnd⟩ : ∃ left right, body.kind = .binary .and left right := by
    obtain ⟨left, right, isConjunction⟩ := Shape.exists_conjunction first several
    obtain ⟨note, kind, rfl, same⟩ := exists_of_shape (isBody.trans isConjunction)
    cases kind <;> simp at same
    exact ⟨_, _, congrArg (Kind.binary · _ _) same.1⟩
  have gives : Attempt.Gives ((ofTree tree settings).attempt .splitWhere container.ref) _ :=
    splitFilter_of_only unit.toIsProgram within isStatement isOnly form isAnd
  obtain ⟨split, isSplit, anchor, run, calls, made, isProgram, isAnchor, isRun, areMade⟩ :=
    offered?_of_gives gives
  obtain ⟨operands, conjuncts, areFactors⟩ := exists_operands isBody factors
  obtain ⟨operand, operands, rfl, isFirst, areOthers⟩ := List.map_eq_cons_iff.1 areFactors
  rw [conjuncts] at areMade
  have bodyInside : body ∈ call.subterms := by
    simp [form, subterms_node, Term.parts, self_mem_subterms]
  have inPlaceBody :=
    unit.inPlace.subterm (subterms_trans (subterms_trans within inside) bodyInside)
  have inBody : ∀ part ∈ operand :: operands, part ∈ body.subterms ∧ part.kind.sort = .expression :=
    fun part member => by
    have among : some part ∈ body.conjuncts := conjuncts ▸ List.mem_map_of_mem member
    exact ⟨conjuncts_subset among, sort_of_conjuncts inPlaceBody (by rw [isAnd]; rfl) among⟩
  have undeclaredBody : ∀ part ∈ body.subterms, part.kind.declaredName? ≠ some name := by
    have all := all_iff_subterms.2 undeclared
    rw [← isBody, Term.shape, all_map_iff] at all
    intro part below
    rw [← Kind.declaredName?_of_skeleton part.skeleton_shape]
    exact all_iff_subterms.1 all part below
  have several' : operands ≠ [] := fun none => several (by rw [← areOthers, none]; rfl)
  have merges :
      Attempt.Gives ((ofTree split.result settings).attempt .mergeWhere container.ref) _ :=
    merge_of_splitFilter unit within isStatement isOnly form isProgram isAnchor isRun several'
    areMade inBody undeclaredBody
  obtain ⟨merge, isMerge, merged, isMerged, isShape⟩ := offered?_of_gives merges
  refine ⟨split, merge, isSplit, isMerge, ?_⟩
  rw [Tree.shape, Tree.shape, isMerged.outline_root, unit.outline_root]
  refine shape_swap unit.stands.once (subterms_trans within inside) ?_
  rw [isShape, isCall, isFirst, areOthers]

/-- A filter that is skipped on null, over a conjunction with a conjunction in parentheses, comes
back. -/
theorem mergeWhere_of_splitWhere_of_nested : ∃ tree split merge,
    Tree.parse 0 "q?.Where(x => x.A && (x.B && y));" = .ok tree ∧
      (ofTree tree {}).offered? .splitWhere (some 14) = .ok (some split) ∧
      (ofTree split.result {}).offered? .mergeWhere (some 14) = .ok (some merge) ∧
      merge.result.shape = tree.shape := by
  let ident (name : String) : Option Shape := some (.node () (.ident name))
  let read (name : String) : Option Shape := some (.node () (.member (ident "x") name false))
  let first : Shape := .node () (.member (ident "x") "A" false)
  let second : Shape := .node () (.paren (some (.node () (.binary .and (read "B") (ident "y")))))
  have facts : (Tree.parse 0 "q?.Where(x => x.A && (x.B && y));").toOption.any (fun tree =>
      some 14 ∈ tree.attached && (tree.kind (some 14)).isStatement && tree.callsOf "Where" (some 14)
        = [some 13] && tree.lists = #[some 2, some 12, some 14] && tree.nodes.map Node.kind =
          #[.ident "q", .member (some 0) "Where" true, .param none "x", .ident "x",
            .member (some 3) "A" false, .ident "x", .member (some 5) "B" false, .ident "y",
            .binary .and (some 6) (some 7), .paren (some 8), .binary .and (some 4) (some 9),
            .lambda ⟨0, 1⟩ (some 10) false, .argument .plain (some 11), .invoke (some 1) ⟨1, 1⟩,
            .exprStmt (some 13), .unit ⟨2, 1⟩]) = true := by
    decide +kernel
  obtain ⟨tree, parsed, facts⟩ := exists_of_any facts
  simp only [Bool.and_eq_true, decide_eq_true_eq] at facts
  obtain ⟨⟨⟨⟨attached, isStatement⟩, only⟩, lists⟩, kinds⟩ := facts
  have isKind (number : Nat) :
      tree.kind (some number) = ((tree.nodes.map Node.kind)[number]?).getD .null := by
    rw [Tree.kind, Tree.node, Array.getElem?_map]
    cases tree.nodes[number]? <;> rfl
  obtain ⟨rest, deep⟩ : ∃ rest, tree.depthBound = rest + 8 :=
    ⟨9, by rw [Tree.depthBound, Tree.size, ← Array.size_map, kinds]; rfl⟩
  have isCall : (tree.outline (some 13)).shape
      = Shape.callOver (ident "q") "Where" true "x" (Shape.conjunction first [second]) := by
    simp [Tree.outline, deep, outlineWithin_succ, isKind, kinds, Tree.content, Tree.items, lists,
      Kind.slots, Kind.withSlots, announced, Shape.callOver, Shape.conjunction, first, second,
      read, ident]
  have factors : ∀ factor ∈ [first, second], factor.IsFactor := by
    intro factor member
    rcases List.mem_pair.1 member with rfl | rfl
    · exact .inl ⟨rfl, by simp [first, Term.kind]⟩
    · exact .inr ⟨_, rfl, rfl⟩
  have undeclared : ∀ part ∈ (Shape.conjunction first [second]).subterms, part.kind.declaredName?
      ≠ some "x" := by
    intro part member
    simp [first, second, read, ident, Shape.conjunction, subterms_node, Term.parts] at member
    rcases member with rfl | rfl | rfl | rfl | rfl | rfl | rfl | rfl <;>
      simp [Term.kind, Kind.declaredName?]
  obtain ⟨split, merge, isSplit, isMerge, same⟩ :=
    @mergeWhere_of_splitWhere tree {} _ _ _ _ _ _ _ (wellFormed_of_parse parsed)
      (isSorted_of_parse parsed) attached isStatement only isCall
      (List.cons_ne_nil second []) factors undeclared
  exact ⟨tree, split, merge, parsed, isSplit, isMerge, same⟩

end Context

end Refactory
