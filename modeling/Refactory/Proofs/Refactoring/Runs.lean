import Refactory.Proofs.Model.Unit
import Refactory.Proofs.Refactoring.Merge
import Refactory.Proofs.Refactoring.Split

/-!
# The only run of a statement

Where a run has all the calls of a method in a statement, and its calls pass functions that can be
merged, merging at the statement is offered and puts the merged call in the place of the run
(`Context.merge_of_isRun`). Functions that are written as lambdas are taken as they stand
(`CallRun.functionsOf?_of_lambdas`), and their parameter keeps its name where the name means nothing
else in their bodies (`Context.mergedParameter_of_kept`).
-/
namespace Refactory

open Term Refactory.Tree

variable {method : String}

/-- An attempt that comes to something offers it. -/
theorem Context.offered?_of_gives {context : Context} {refactoring : Refactoring} {ref : Ref}
    {post : Action → Prop} (gives : Attempt.Gives (context.attempt refactoring ref) fun offered =>
      ∃ action, offered = some action ∧ post action) :
    ∃ action, context.offered? refactoring ref = .ok (some action) ∧ post action := by
  obtain ⟨_, log, come, action, rfl, posted⟩ := gives #[]
  refine ⟨action, ?_, posted⟩
  rw [Context.offered?, Context.outcome, ExceptT.run, come]

namespace Term

variable {α : Type}

/-- A member access is in place when what it is called on is. -/
theorem all_inPlace_member {access : Term α} {receiver : Option (Term α)} {name : String}
    {conditional : Bool}
    (form : access.kind = .member receiver name conditional)
    (inPlace : ∀ term ∈ receiver, term.All InPlace ∧ term.kind.sort = .expression) :
    access.All InPlace := by
  rcases access with ⟨note, kind⟩
  obtain rfl : kind = _ := form
  refine .intro ⟨.cons (fits_one.2 fun term held => by simp [(inPlace term held).2]) .nil⟩
    fun child held => ?_
  exact (inPlace child (by simpa [children, kind, parts] using held)).1

/-- A member access is in place when one on the same receiver is. -/
theorem all_inPlace_anchor {access anchor : Term α} {receiver : Option (Term α)}
    {name name' : String}
    {conditional conditional' : Bool} (inPlace : access.All InPlace)
    (form : access.kind = .member receiver name conditional)
    (isAnchor : anchor.kind = .member receiver name' conditional') :
    anchor.All InPlace ∧ anchor.kind.sort = .expression := by
  have sorts := inPlace.here.sorts
  rw [form] at sorts
  simp only [Kind.slots, Kind.childSorts, List.forall₂_cons, fits_one, List.mem_singleton] at sorts
  refine ⟨all_inPlace_member isAnchor fun term held => ⟨inPlace.child ?_, sorts.1 term held⟩, ?_⟩
  · simp [children, form, parts, Option.mem_def.1 held]
  · rw [isAnchor]
    rfl

/-- A call is in place when its callee and the function that it passes are. -/
theorem IsCallOn.all_inPlace {callee function call : Term α}
    (isCall : IsCallOn callee function call)
    (called : callee.All InPlace ∧ callee.kind.sort = .expression)
    (passed : function.All InPlace ∧ function.kind.sort = .expression) : call.All InPlace := by
  obtain ⟨place, argument, rfl⟩ := isCall
  obtain ⟨allCallee, sortCallee⟩ := called
  obtain ⟨allFunction, sortFunction⟩ := passed
  have passed : (node argument (.argument .plain (some function))).All InPlace := by
    refine .intro ⟨.cons (fits_one.2 fun term held => ?_) .nil⟩ fun child held => ?_
    · simp [← Option.mem_some.1 held, sortFunction]
    · obtain rfl : child = function := by simpa [children, kind, parts] using held
      exact allFunction
  refine .intro
    ⟨.cons (fits_one.2 fun term held => ?_) (.cons (fits_many.2 fun term held => ?_) .nil)⟩
    fun child held => ?_
  · simp [← Option.mem_some.1 held, sortCallee]
  · rw [List.mem_singleton.1 held]
    exact .head _
  · have cases : child = callee ∨ child = node argument (.argument .plain (some function)) := by
      simpa [children, kind, parts] using held
    rcases cases with rfl | rfl
    · exact allCallee
    · exact passed

/-- A lambda of one parameter, which is written in a given way. -/
def IsLambda (param : Shape) (body : Option (Term α)) (function : Term α) : Prop :=
  ∃ lambda copy parenthesized, copy.shape = param ∧
    function = .node lambda (.lambda [copy] body parenthesized)

/-- A parameter without a type is in place. -/
theorem all_inPlace_bareParam (name : String) :
    (.node () (.param none name) : Shape).All InPlace ∧
      (.node () (.param none name) : Shape).kind.sort = .param := by
  refine ⟨.intro ⟨.cons (fits_one.2 ?_) .nil⟩ ?_, rfl⟩
  · simp
  · simp [children, kind, parts]

section

variable {param : Shape} {body : Option (Term α)} {function part : Term α}
  (isLambda : IsLambda param body function) (isParam : param.All InPlace ∧ param.kind.sort = .param)

include isLambda isParam

/-- A lambda over an expression that is in place is in place. -/
theorem IsLambda.all_inPlace
    (inPlace : ∀ term ∈ body, term.All InPlace ∧ term.kind.sort = .expression) :
    function.All InPlace ∧ function.kind.sort = .expression := by
  obtain ⟨lambda, copy, parenthesized, rfl, rfl⟩ := isLambda
  obtain ⟨inPlaceParam, sortParam⟩ := isParam
  rw [all_inPlace_shape_iff] at inPlaceParam
  rw [sort_shape] at sortParam
  refine ⟨.intro ⟨?_⟩ fun child held => ?_, rfl⟩
  · refine .cons (fits_many.2 fun term held => ?_) (.cons (fits_one.2 fun term held => ?_) .nil)
    · simp [List.mem_singleton.1 held, sortParam]
    · simp [(inPlace term held).2]
  · have cases : child = copy ∨ child ∈ body := by simpa [children, kind, parts] using held
    rcases cases with rfl | inBody
    · exact inPlaceParam
    · exact (inPlace child inBody).1

/-- A part of a lambda is the lambda, a part of its parameter or a part of its body. Only types
stand in a parameter. -/
theorem IsLambda.cases_of_mem (inside : part ∈ function.subterms) :
    (∃ params parenthesized, part.kind = .lambda params body parenthesized) ∨
      part.kind.sort ∈ [NodeSort.param, .type] ∨ ∃ term ∈ body, part ∈ term.subterms := by
  obtain ⟨lambda, copy, parenthesized, rfl, rfl⟩ := isLambda
  obtain ⟨inPlaceParam, sortParam⟩ := isParam
  rw [all_inPlace_shape_iff] at inPlaceParam
  rw [sort_shape] at sortParam
  have places : part = .node lambda (.lambda [copy] body parenthesized) ∨ part ∈ copy.subterms ∨
      part ∈ body.toList.flatMap subterms := by
    simpa [subterms_node, parts] using inside
  rcases places with rfl | inParam | inBody
  · exact .inl ⟨_, _, rfl⟩
  · exact .inr (.inl (sort_of_mem_param inPlaceParam (by simp [sortParam]) inParam))
  · obtain ⟨term, held, below⟩ := List.mem_flatMap.1 inBody
    exact .inr (.inr ⟨term, by simpa using held, below⟩)

/-- A lambda calls a method only in its body. -/
theorem IsLambda.callsMethod_eq_false
    (quiet : ∀ term ∈ body, ∀ part ∈ term.subterms, part.callsMethod method = false)
    (inside : part ∈ function.subterms) : part.callsMethod method = false := by
  rcases isLambda.cases_of_mem isParam inside with ⟨_, _, form⟩ | sort | ⟨term, held, below⟩
  · exact callsMethod_of_kind (by simp [form])
  · refine callsMethod_of_kind fun callee arguments form => ?_
    rw [form] at sort
    simp [Kind.sort] at sort
  · exact quiet term held part below

end

/-- A run is in place when its anchor and its functions are. -/
theorem IsRun.all_inPlace {anchor : Term α} {calls functions : List (Term α)}
    (run : IsRun method anchor calls functions)
    (anchored : anchor.All InPlace ∧ anchor.kind.sort = .expression)
    (inPlace : ∀ function ∈ functions, function.All InPlace ∧ function.kind.sort = .expression) :
    ∀ call ∈ calls.head?, call.All InPlace ∧ call.kind.sort = .expression := by
  induction run with
  | first isCall =>
    rintro _ ⟨rfl⟩
    refine ⟨isCall.all_inPlace anchored (inPlace _ (.head _)), ?_⟩
    obtain ⟨place, argument, rfl⟩ := isCall
    rfl
  | @next access function inner call calls functions _ isCall ih =>
    rintro _ ⟨rfl⟩
    have below := ih (fun other member => inPlace other (.tail _ member)) inner rfl
    have accessed : (node access (.member (some inner) method false)).All InPlace :=
      all_inPlace_member rfl fun term held => Option.mem_some.1 held ▸ below
    refine ⟨isCall.all_inPlace ⟨accessed, rfl⟩ (inPlace _ (.head _)), ?_⟩
    obtain ⟨place, argument, rfl⟩ := isCall
    rfl

/-- Nothing below the only call of a method in a term calls the method. -/
theorem callsMethod_of_only {container call child part : Outline} {method : String}
    (once : container.refs.Nodup)
    (only : container.subterms.filter (callsMethod method) = [call]) (held : child ∈ call.children)
    (below : part ∈ child.subterms) : part.callsMethod method = false := by
  have found {part : Outline} : part ∈ container.subterms ∧ part.callsMethod method = true ↔
      part = call := by
    rw [← List.mem_filter, only, List.mem_singleton]
  have inside : call ∈ container.subterms := (found.2 rfl).1
  by_contra calls
  have isPart := found.1
    ⟨subterms_trans inside (mem_subterms_of_child held below), Bool.eq_true_of_not_eq_false calls⟩
  exact ref_ne_of_child (once.sublist (refs_sublist inside)) held below (congrArg ref isPart).symm

end Term

namespace Tree

variable {tree : Tree} {whole : Outline}

/-- Where the only call of a method in a statement gives its place to a run on the same receiver,
and nothing in the functions of the run calls the method, the run has all the calls of the method in
the statement. -/
theorem IsUnit.swap_only {after : Tree} {container call access argument run anchor : Outline}
    {receiver : Option Outline}
    {method : String} {conditional : Bool} {calls functions : List Outline}
    (unit : tree.IsUnit whole)
    (within : container ∈ whole.subterms) (isStatement : container.kind.isStatement)
    (only : container.subterms.filter (callsMethod method) = [call])
    (form : call.kind = .invoke (some access) [argument])
    (formAccess : access.kind = .member receiver method conditional)
    (program : after.IsProgram (Term.swap call.ref run whole))
    (isAnchor : anchor.kind = .member receiver method conditional)
    (isRun : IsRun method anchor (run :: calls) functions)
    (inPlace : ∀ function ∈ functions, function.All InPlace ∧ function.kind.sort = .expression)
    (quiet : ∀ function ∈ functions, ∀ part ∈ function.subterms, part.callsMethod method = false) :
    after.IsUnit (Term.swap call.ref run whole) ∧
      Term.swap call.ref run container ∈ (Term.swap call.ref run whole).subterms ∧
      (Term.swap call.ref run container).kind.isStatement ∧
      (Term.swap call.ref run container).ref = container.ref ∧
      (Term.swap call.ref run container).subterms.filter (callsMethod method) = run :: calls ∧
      ∀ term ∈ receiver, term.callsMethod method = false := by
  have inside : call ∈ container.subterms :=
    List.mem_of_mem_filter (p := callsMethod method) (by rw [only]; exact .head _)
  have inWhole := subterms_trans within inside
  have onceContainer := (unit.stands.subterm within).once
  have heldAccess : access ∈ call.children := by simp [Term.children, form, parts]
  have heldReceiver : ∀ term ∈ receiver, term ∈ access.children := by
    simp +contextual [Term.children, formAccess, parts]
  have quietReceiver : ∀ term ∈ receiver, ∀ part ∈ term.subterms, part.callsMethod method = false :=
    fun term held part below => callsMethod_of_only onceContainer only heldAccess
    (mem_subterms_of_child (heldReceiver term held) below)
  have inPlaceAccess := (unit.inPlace.subterm inWhole).child heldAccess
  obtain ⟨inPlaceRun, sortRun⟩ :=
    isRun.all_inPlace (all_inPlace_anchor inPlaceAccess formAccess isAnchor) inPlace run rfl
  have sortCall : call.kind.sort = .expression := by rw [form]; rfl
  have same : run.kind.skeleton = call.kind.skeleton := by
    obtain ⟨_, _, ⟨_, _, _, rfl⟩, -, -⟩ := List.forall₂_cons_left_iff.1 isRun.passes
    rw [form]
    rfl
  have apart : container.ref ≠ call.ref := fun here => by
    rw [subterm_unique onceContainer (self_mem_subterms container) inside here, form] at isStatement
    cases isStatement
  refine ⟨unit.swap inWhole program inPlaceRun (sortRun.trans sortCall.symm) (.inl sortCall),
    swap_mem_subterms unit.stands.once within inside, ?_, ref_swap_of_ne apart, ?_, fun term held =>
      quietReceiver term held term (self_mem_subterms term)⟩
  · rw [kind_swap_of_ne apart, Kind.isStatement_of_skeleton (skeleton_mapChildren _ _)]
    exact isStatement
  · rw [calls_swap onceContainer same only]
    refine isRun.calls_eq isAnchor (fun part inReceiver => ?_) quiet run rfl
    obtain ⟨term, held, below⟩ := List.mem_flatMap.1 inReceiver
    exact quietReceiver term (by simpa using held) part below

/-- The functions of a run that stands stand apart from each other. -/
theorem Stands.functions_of_isRun {anchor call : Outline} {calls functions : List Outline}
    (stands : tree.Stands call) (run : IsRun method anchor calls functions)
    (isHead : calls.head? = some call) :
    tree.StandsAll functions := by
  induction run generalizing call with
  | first isCall =>
    cases isHead
    exact StandsAll.singleton_iff.2 (stands.subterm isCall.inside.2)
  | @next access function inner _ calls functions run isCall ih =>
    cases isHead
    obtain ⟨place, argument, rfl⟩ := isCall
    set callee : Outline := .node access (.member (some inner) method false)
    have heldInner : inner ∈ callee.subterms :=
      child_mem_subterms (by simp [callee, Term.children, Term.kind, parts])
    obtain ⟨standing, -⟩ := @Stands.calleeAndValue tree _ callee _ (some function) stands rfl rfl
    have others := ih ((standing.each callee (.head _)).subterm heldInner) rfl
    refine (standing.narrow others ?_).perm (List.perm_append_singleton function functions)
    intro ref member
    obtain ⟨other, isOther, inOther⟩ := List.mem_flatMap.1 member
    exact refs_subset (subterms_trans heldInner ((run.parts_inside rfl).2 other isOther)) inOther

/-- The statement of a statement is the statement. -/
theorem statementOf_of_isStatement {ref : Ref} (isStatement : (tree.kind ref).isStatement) :
    tree.statementOf ref = ref := by
  rw [statementOf, lineage, List.find?_cons, isStatement]
  rfl

/-- A lambda of one parameter whose body is no block is found to be simple. -/
theorem simpleLambda?_of_form {lambda param body : Outline} {type : Option Outline} {name : String}
    {parenthesized : Bool}
    (shown : lambda.All tree.Shows) (form : lambda.kind = .lambda [param] (some body) parenthesized)
    (isParam : param.kind = .param type name)
    (noBlock : ∀ statements, body.kind ≠ .block statements) :
    tree.simpleLambda? lambda.ref = some ⟨param.ref, name, body.ref, parenthesized⟩ := by
  rw [simpleLambda?_iff shown]
  refine ⟨param, some body, type, form, isParam, fun inner held statements => ?_, rfl, rfl⟩
  rw [← Option.some.inj held]
  exact noBlock statements

end Tree

/-- A function is that of a lambda of one parameter over an expression. -/
def Abstraction.IsOf (model : Model) (function : Abstraction) (lambda : Outline) : Prop :=
  ∃ param body type parenthesized symbol, lambda.kind = .lambda [param] (some body) parenthesized ∧
    param.kind = .param type function.param ∧ (∀ statements, body.kind ≠ .block statements) ∧
    model.declaredSymbol param.ref = some symbol ∧ function.referent = .symbol symbol ∧
    function.body = body.ref

namespace CallRun

variable {tree middle : Tree} {model : Model} {placeholder : String} {accepts : Acceptance}

/-- A lambda is a function as it stands. -/
theorem of?_of_lambda {function : Abstraction} {lambda : Outline} (shown : lambda.All tree.Shows)
    (isOf : function.IsOf model lambda) :
    Abstraction.of? model placeholder lambda.ref tree = (some function, tree) := by
  obtain ⟨param, body, type, parenthesized, symbol, form, isParam, noBlock, isSymbol, isReferent,
    isBody⟩ := isOf
  rw [Abstraction.of?, Edit.get_bind, simpleLambda?_of_form shown form isParam noBlock]
  dsimp only
  rw [isSymbol, Option.map_some, ← isReferent, ← isBody]
  rfl

/-- The functions of calls that pass lambdas are those of the lambdas, if they are accepted. -/
theorem functionsOf?_of_lambdas {place : Nat} {calls lambdas : List Outline}
    {functions : List Abstraction}
    (shown : ∀ call ∈ calls, call.All tree.Shows)
    (passes : List.Forall₂ (fun call lambda => ∃ callee, IsCallOn callee lambda call) calls lambdas)
    (areOf : List.Forall₂ (Abstraction.IsOf model) functions lambdas)
    (accepted : ∀ function ∈ functions, ∀ place, accepts tree function place = true) :
    functionsOf? model placeholder accepts place (calls.map Term.ref) tree =
    (some functions, tree) := by
  induction passes generalizing place functions with
  | nil =>
    cases areOf
    rfl
  | @cons call lambda calls lambdas isCall _ ih =>
    obtain ⟨function, functions, isOf, areOthers, rfl⟩ := List.forall₂_cons_right_iff.1 areOf
    obtain ⟨callee, isCall⟩ := isCall
    have shownCall := shown call (.head _)
    have passed : tree.singleArgument? call.ref = some lambda.ref := by
      obtain ⟨place, argument, rfl⟩ := isCall
      exact singleArgument?_of_passes shownCall ⟨_, _, rfl, rfl⟩
    rw [List.map_cons, functionsOf?_cons _ passed (of?_of_lambda (shownCall.subterm isCall.inside.2)
      isOf), Option.elim_some, if_pos (accepted function (.head _) place),
      ih (fun other member => shown other (.tail _ member)) areOthers
      fun other member => accepted other (.tail _ member)]
    rfl

end CallRun

namespace Context

variable {context : Context}

/-- What a change comes to is offered. -/
theorem offer_of_eq {refactoring : Refactoring} {title : String} {start after : Tree}
    {change : Change Unit} (changed : change start = .ok ((), after)) :
    Attempt.Gives (context.offer refactoring title start change)
      (· = some ⟨refactoring, title, context.tree.version, after⟩) := by
  rw [offer, StateT.run, changed]
  exact (Attempt.note_gives _).bind fun _ _ => .pure rfl

/-- The parameter of a merged function keeps the name of the first function that is written as a
lambda, where the name means nothing else in the functions. -/
theorem mergedParameter_of_kept {scratch : Tree} {run : CallRun} {function : Abstraction}
    (written : run.functions.find? (fun function => !function.referent.isSynthesized)
      = some function)
    (kept : ∀ other ∈ run.functions, other.captures scratch context.model function.param = false) :
    Attempt.Gives (context.mergedParameter scratch run) (· = function.param) := by
  have isKept : run.functions.all
      (fun other => !other.captures scratch context.model function.param) = true :=
    List.all_eq_true.2 fun other member => by rw [kept other member]; rfl
  rw [mergedParameter, written]
  simp only [Option.map_some, Option.filter_some, isKept, if_true]
  exact .pure rfl

open CallRun in
/-- Where a run has all the calls of a method in a statement and passes functions that are accepted,
merging puts the merged call in the place of the run. -/
theorem merge_of_isRun {merging : Merging} (combines : merging.Combines)
    {whole container call inner anchor : Outline} {receiver : Option Outline} {conditional : Bool}
    {calls functions : List Outline} {first : Abstraction} {others : List Abstraction}
    {middle : Tree} {name : String} (program : context.tree.IsProgram whole)
    (within : container ∈ whole.subterms) (isStatement : container.kind.isStatement)
    (isAnchor : anchor.kind = .member receiver merging.method conditional)
    (noReceiver : ∀ term ∈ receiver, term.callsMethod merging.method = false)
    (run : IsRun merging.method anchor (call :: inner :: calls) functions)
    (all : container.subterms.filter (callsMethod merging.method) = call :: inner :: calls)
    (denote : functionsOf? context.model context.settings.placeholder
      (merging.accepts context.model) 0 ((call :: inner :: calls).reverse.map Term.ref) context.tree
        = (some (first :: others), middle))
    (isName : Attempt.Gives (context.mergedParameter middle ⟨call.ref, anchor.ref, first, others⟩)
      (· = name)) :
    Attempt.Gives (context.merge merging container.ref) fun offered =>
    ∃ action merged, offered = some action ∧
      action.title = "Merge " ++ toString (others.length + 1) ++ " " ++ merging.method ++ " calls" ∧
      action.result.IsProgram (Term.swap call.ref merged whole) ∧
      IsMerged anchor name (merging.combine context.model name first others middle) merged := by
  have statement : context.tree.statementOf container.ref = container.ref := by
    refine statementOf_of_isStatement ?_
    rw [Kind.isStatement_of_skeleton (program.stands.shows within).depicts.skeleton]
    exact isStatement
  have searched := search_eq program within isStatement isAnchor noReceiver run all denote
  obtain ⟨search, after, searched', frame, found⟩ :=
    @search_stands context.model context.settings.placeholder
    merging.method (merging.accepts context.model) whole container.ref _ program
    (mem_refs.2 ⟨container, within, rfl⟩)
  obtain ⟨rfl, rfl⟩ := Prod.mk.inj (searched'.symm.trans searched)
  obtain ⟨outer, anchor', bodies, stands, -⟩ := found _ rfl
  have inside : call ∈ whole.subterms :=
    subterms_trans within (List.mem_of_mem_filter (p := callsMethod merging.method) (all ▸ .head _))
  obtain rfl : outer = call :=
    subterm_unique program.stands.once stands.within inside stands.isOuter
  obtain rfl : anchor' = anchor := by
    have standsAnchor : context.tree.Stands anchor :=
      program.stands.subterm (subterms_trans inside (run.parts_inside rfl).1)
    have same : anchor'.ref = anchor.ref := stands.isAnchor
    rw [← (stands.standing.each anchor' (.head _)).outline,
      ← (standsAnchor.of_growth frame).outline, same]
  rw [merge, statement, StateT.run, searched']
  refine (Attempt.noteAll_gives _).bind fun _ _ => isName.bind fun given isGiven => ?_
  obtain ⟨final, merged, changed, places, isMerged⟩ :=
    stands.merge combines given (program.of_frame frame)
  rw [isGiven] at isMerged
  exact (offer_of_eq changed).mono fun offered isOffered =>
    ⟨_, merged, isOffered, rfl, places.program, isMerged⟩

end Context

end Refactory
