import Refactory.Proofs.Model.Declarations
import Refactory.Proofs.Refactoring.Filter

/-!
# Bindings of what is split

A split moves parts of the body of a lambda into new functions (`Tree.Moves`): an operand or a call
comes under a copy of the parameter, a call around another one gets the name of the parameter in the
place of the inner call, and what a call only passes its argument to comes out of the lambda.
Nothing else in such a part is bound anew (`Tree.Moves.reads`), so that every name refers to what it
referred to, and what referred to the old parameter refers to that of the lambda around it
(`LambdaCall.Stands.keepsBindings`).
-/
namespace Refactory

variable {inner : Outline}

namespace Term

variable {α : Type}

/-- What is inside the parentheses around an expression lies in none of its lambdas. -/
theorem exposed_of_bareOf {child : Option Outline} (isBare : bareOf child = some inner) :
    ∃ term, child = some term ∧ Exposed inner term := by
  cases child with
  | none => cases isBare
  | some term =>
    refine ⟨term, rfl, ?_⟩
    rw [bareOf] at isBare
    induction term using Term.induction with
    | step place form ih =>
      cases form
      case paren below =>
        rw [bare] at isBare
        cases below with
        | none => cases isBare
        | some below =>
          have held : below ∈ (Term.node place (.paren (some below))).children := by
            simp [children, kind, parts]
          exact .child rfl held (ih below held isBare)
      all_goals
        obtain rfl := Option.some.inj isBare
        exact .here

/-- The operands of a conjunction lie in none of its lambdas. -/
theorem exposed_of_conjuncts {term operand : Outline} (member : some operand ∈ term.conjuncts) :
    Exposed operand term := by
  induction term using Term.induction with
  | step place form ih =>
    have side {child : Option Outline} (closed : (Term.node place form).kind.opensScope = false)
        (held : ∀ term ∈ child, term ∈ parts form) (member : some operand ∈ conjunctsOf child) :
        Exposed operand (.node place form) := by
      cases child with
      | none => cases List.mem_singleton.1 member
      | some term => exact .child closed (held term rfl) (ih term (held term rfl) member)
    rw [conjuncts.eq_def] at member
    split at member
    · rename_i left right same
      cases same
      rcases List.mem_append.1 member with member | member
      · exact side rfl (by simp +contextual [parts]) member
      · exact side rfl (by simp +contextual [parts]) member
    · rename_i inner same
      cases same
      obtain rfl := List.mem_singleton.1 member
      exact .of_child rfl (by simp [children, kind, parts])
    · cases List.mem_singleton.1 member
      exact .here

end Term

namespace Tree

open Term

theorem bareOf_eq_of_stripParens {tree : Tree} {child inner : Option Outline}
    (all : tree.StandsAll child.toList) (shown : ∀ term ∈ inner, term.All tree.Shows)
    (strips : tree.stripParens (refOf child) = refOf inner) :
    bareOf child = inner := by
  refine @eq_of_refOf_eq tree _ _ (fun term held => ?_) shown
    ((stripParens_eq all).symm.trans strips)
  obtain ⟨outer, rfl, exposed⟩ := exposed_of_bareOf (Option.mem_def.1 held)
  exact (all.each outer (by simp)).shown.subterm exposed.mem_subterms

end Tree

namespace Term

variable {method : String} {anchor call part : Outline} {calls functions : List Outline}

/-- The names in a run are those in what it is called on and in its functions. -/
theorem IsRun.cases_of_ident {receiver : Option Outline}
    {name spelled : String} {conditional : Bool} (run : IsRun method anchor calls functions)
    (isAnchor : anchor.kind = .member receiver name conditional) (isHead : calls.head? = some call)
    (inside : part ∈ call.subterms) (isName : part.kind = .ident spelled) :
    part ∈ receiver.toList.flatMap subterms ∨ ∃ function ∈ functions, part ∈ function.subterms := by
  have onCall {callee function call : Outline} (isCall : IsCallOn callee function call)
      (inside : part ∈ call.subterms) :
      part ∈ callee.subterms ∨ part ∈ function.subterms := by
    obtain ⟨place, argument, rfl⟩ := isCall
    simp only [subterms_node, parts, Kind.slots, List.flatMap_cons, List.flatMap_nil, Slot.terms,
      Option.toList_some,
      List.append_nil, List.singleton_append, List.mem_cons, List.mem_append] at inside
    rcases inside with rfl | inside | rfl | inside
    · cases isName
    · exact .inl inside
    · cases isName
    · exact .inr inside
  have onAccess {access : Outline} {receiver : Option Outline} {name : String} {conditional : Bool}
      (isAccess : access.kind = .member receiver name conditional)
      (inside : part ∈ access.subterms) :
      part ∈ receiver.toList.flatMap subterms := by
    rcases access with ⟨place, form⟩
    obtain rfl : form = _ := isAccess
    rw [subterms_node] at inside
    rcases List.mem_cons.1 inside with rfl | inside
    · cases isName
    · simpa [parts] using inside
  induction run generalizing call with
  | first isCall =>
    cases isHead
    exact (onCall isCall inside).imp (onAccess isAnchor) fun below => ⟨_, .head _, below⟩
  | next _ isCall ih =>
    cases isHead
    rcases onCall isCall inside with below | below
    · refine (ih rfl (by simpa using onAccess rfl below)).imp_right fun found => ?_
      obtain ⟨function, member, below⟩ := found
      exact ⟨function, .tail _ member, below⟩
    · exact .inr ⟨_, .head _, below⟩

/-- What a run is called on and its functions are read in the environment of the run. -/
theorem IsRun.visits {whole : Outline} {listed outerListed : Bool} {env outerEnv : Environment}
    (run : IsRun method anchor calls functions) (isHead : calls.head? = some call)
    (inPlace : call.All InPlace)
    (visited : ⟨call, listed, env⟩ ∈ Term.visits outerListed whole outerEnv) :
    ⟨anchor, false, env⟩ ∈ Term.visits outerListed whole outerEnv ∧
      ∀ function ∈ functions, ⟨function, false, env⟩ ∈ Term.visits outerListed whole outerEnv := by
  have onCall {callee function call : Outline} {listed : Bool}
      (isCall : IsCallOn callee function call)
      (inPlace : call.All InPlace)
      (visited : ⟨call, listed, env⟩ ∈ Term.visits outerListed whole outerEnv) :
      callee.All InPlace ∧ ⟨callee, false, env⟩ ∈ Term.visits outerListed whole outerEnv ∧
        ⟨function, false, env⟩ ∈ Term.visits outerListed whole outerEnv := by
    obtain ⟨place, argument, rfl⟩ := isCall
    set passed : Outline := .node argument (.argument .plain (some function))
    have heldCallee : callee ∈ parts (.invoke (some callee) [passed]) := by simp [parts]
    have heldPassed : passed ∈ parts (.invoke (some callee) [passed]) := by simp [parts]
    have heldFunction : function ∈ parts (.argument .plain (some function)) := by simp [parts]
    obtain ⟨sort, visitedPassed⟩ := visit_child inPlace (.head _) rfl heldPassed visited
    exact ⟨inPlace.child heldCallee, (visit_child inPlace (.head _) rfl heldCallee visited).2,
      (visit_child (inPlace.child heldPassed) sort rfl heldFunction visitedPassed).2⟩
  induction run generalizing call listed with
  | first isCall =>
    cases isHead
    obtain ⟨-, visitedAnchor, visitedFunction⟩ := onCall isCall inPlace visited
    refine ⟨visitedAnchor, fun function member => ?_⟩
    rwa [List.mem_singleton.1 member]
  | @next access function inner call calls functions _ isCall ih =>
    cases isHead
    obtain ⟨inPlaceAccess, visitedAccess, visitedFunction⟩ := onCall isCall inPlace visited
    have held : inner ∈ parts (.member (some inner) method false) := by simp [parts]
    obtain ⟨visitedAnchor, visitedOthers⟩ := ih rfl (inPlaceAccess.child held)
      (visit_child inPlaceAccess (.head _) rfl held visitedAccess).2
    exact ⟨visitedAnchor, List.forall_mem_cons.2 ⟨visitedFunction, visitedOthers⟩⟩

end Term

namespace Tree

open Term

/-- How a part of the body of a lambda becomes a function of its own. -/
inductive Moves (tree : Tree) (name : String) (param body : Outline) : Outline → Prop
  /-- What a call calls, without a reference to the parameter, comes out of the lambda. -/
  | called {call callee : Outline} {arguments : List Outline} (exposed : Exposed call body)
      (form : call.kind = .invoke (some callee) arguments)
      (unused : ∀ part ∈ callee.subterms, (Model.build tree).declarationOf part.ref
        ≠ some param.ref) :
      Moves tree name param body callee
  /-- An expression comes into a lambda of its own. -/
  | alone {operand : Option Outline} {function : Outline}
      (exposed : ∀ term ∈ operand, Exposed term body ∧ term.kind.sort = .expression)
      (isLambda : IsLambda param.shape operand function) : Moves tree name param body function
  /-- A call comes into a lambda of its own with the name of the parameter in one of its
  arguments. -/
  | refilled {call hole inner function : Outline} {place : Place} {callee : Option Outline}
      {arguments : List Outline}
      (exposed : Exposed call body) (form : call.kind = .invoke callee arguments)
      (held : hole ∈ arguments)
      (passes : hole.kind = .argument .plain (some inner)) (isNew : ¬tree.HasRef place.ref)
      (isLambda : IsLambda param.shape
        (some (refill hole (.node place (.ident name)) call)) function) :
      Moves tree name param body function

end Tree

namespace Term

theorem refs_of_ident {part : Outline} {name : String} (isName : part.kind = .ident name) :
    part.refs = [part.ref] := by
  rcases part with ⟨place, form⟩
  obtain rfl : form = _ := isName
  simp [refs_node, parts]

/-- A name stays when another term comes in the place of another part. -/
theorem swap_of_ident {part new : Outline} {target : Ref} {name : String}
    (differ : part.ref ≠ target)
    (isName : part.kind = .ident name) : swap target new part = part := by
  refine swap_of_not_mem fun inside => differ ?_
  rw [refs_of_ident isName, List.mem_singleton] at inside
  exact inside.symm

/-- A call with a name in one of its arguments is in place. -/
theorem inPlace_refill (place : Place) (name : String) {call hole : Outline}
    {callee : Option Outline}
    {arguments : List Outline} (once : call.refs.Nodup) (inPlace : call.All InPlace)
    (form : call.kind = .invoke callee arguments) (held : hole ∈ arguments)
    (passes : hole.kind = .argument .plain (some inner)) :
    (Term.node hole.note (.argument .plain (some (.node place (.ident name)))) : Outline).All
    InPlace ∧ (refill hole (.node place (.ident name)) call).All InPlace := by
  have isChild : hole ∈ call.children := by simp [Term.children, form, parts, held]
  have inPlaceNew : (Term.node hole.note
      (.argument .plain (some (.node place (.ident name)))) : Outline).All InPlace := by
    refine .intro ⟨.cons (fits_one.2 (by simp [Term.kind, Kind.sort])) .nil⟩ fun child held => ?_
    obtain rfl : child = .node place (.ident name) := by
      simpa [Term.children, Term.kind, parts] using held
    exact .intro ⟨.nil⟩ (by simp [Term.children, Term.kind, parts])
  refine ⟨inPlaceNew, all_inPlace_swap once (child_mem_subterms isChild) inPlace inPlaceNew ?_⟩
  rw [passes]
  rfl

/-- A call with a name in one of its arguments is a call. -/
theorem sort_refill {call hole value : Outline} {callee : Option Outline} {arguments : List Outline}
    (once : call.refs.Nodup) (form : call.kind = .invoke callee arguments)
    (held : hole ∈ arguments) :
    (refill hole value call).kind.sort = .expression := by
  have isChild : hole ∈ call.children := by simp [Term.children, form, parts, held]
  have above : call.ref ≠ hole.ref := (ref_ne_of_child once isChild (self_mem_subterms hole))
  rw [refill, kind_swap_of_ne above, Kind.sort_of_skeleton (skeleton_mapChildren _ _), form]
  rfl

/-- A copy of a parameter declares the name of the parameter. -/
theorem exists_of_copied_param {param copy : Outline} {type : Option Outline} {name : String}
    (isParam : param.kind = .param type name) (same : copy.shape = param.shape) :
    ∃ type, copy.kind = .param type name := by
  rcases param with ⟨note, form⟩
  obtain rfl : form = .param type name := isParam
  obtain ⟨place, form, rfl, isForm⟩ := exists_of_shape same
  cases form <;> simp at isForm
  exact ⟨_, by rw [isForm.2]; rfl⟩

/-- The names in a lambda are in its body. -/
theorem IsLambda.exists_of_ident {spelled : String} {param : Shape}
    {body : Option Outline} {function part : Outline} (isLambda : IsLambda param body function)
    (isParam : param.All InPlace ∧ param.kind.sort = .param)
    (inside : part ∈ function.subterms) (isName : part.kind = .ident spelled) :
    ∃ copy term parenthesized, body = some term ∧ copy.shape = param ∧
      function.kind = .lambda [copy] (some term) parenthesized ∧ part ∈ term.subterms := by
  obtain ⟨_, _, form⟩ | sort | ⟨term, rfl, below⟩ := isLambda.cases_of_mem isParam inside
  · rw [isName] at form
    cases form
  · rw [isName] at sort
    simp [Kind.sort] at sort
  · obtain ⟨lambda, copy, parenthesized, same, rfl⟩ := isLambda
    exact ⟨copy, term, parenthesized, rfl, same, rfl, below⟩

end Term

namespace Tree

open Term

/-- A node is inside a lambda of a parameter. -/
def IsUnder (param function part : Outline) : Prop :=
  ∃ body parenthesized, function.kind = .lambda [param] (some body) parenthesized ∧
    part ∈ body.subterms

/-- A parameter in place is one whose shape a lambda can have. -/
theorem inPlace_shape_param {param : Outline} {type : Option Outline} {name : String}
    (inPlace : param.All InPlace)
    (isParam : param.kind = .param type name) :
    param.shape.All InPlace ∧ param.shape.kind.sort = .param := by
  rw [all_inPlace_shape_iff, sort_shape, isParam]
  exact ⟨inPlace, rfl⟩

namespace Moves

variable {tree : Tree} {name spelled : String} {param body function part whole after : Outline}
  {type : Option Outline} {env : Environment}

section

variable (moves : tree.Moves name param body function) (once : body.refs.Nodup)
  (inPlace : body.All InPlace) (inPlaceParam : param.All InPlace)
  (isParam : param.kind = .param type name) (sort : body.kind.sort = .expression)

include moves once inPlace inPlaceParam isParam

/-- What was moved is an expression in place. -/
theorem isExpression : function.All InPlace ∧ function.kind.sort = .expression := by
  cases moves with
  | @called call callee arguments exposed form _ =>
    have inPlaceCall := inPlace.subterm exposed.mem_subterms
    have held : function ∈ call.children := by simp [Term.children, form, parts]
    have sorts := inPlaceCall.here.sorts
    rw [form] at sorts
    simp only [Kind.slots, Kind.childSorts, List.forall₂_cons, fits_one,
      List.mem_singleton] at sorts
    exact ⟨inPlaceCall.child held, sorts.1 function rfl⟩
  | alone exposed isLambda =>
    refine isLambda.all_inPlace (inPlace_shape_param inPlaceParam isParam) fun term held => ?_
    exact ⟨inPlace.subterm (exposed term held).1.mem_subterms, (exposed term held).2⟩
  | refilled exposed form held passes _ isLambda =>
    have onceCall := once.sublist (refs_sublist exposed.mem_subterms)
    refine isLambda.all_inPlace (inPlace_shape_param inPlaceParam isParam) fun term isBody => ?_
    obtain rfl := Option.some.inj isBody
    exact ⟨(inPlace_refill _ _ onceCall (inPlace.subterm exposed.mem_subterms) form held passes).2,
      sort_refill onceCall form held⟩

include sort

/-- A name in what was moved is read as before but for the name of the parameter, which now means
that of the lambda around it, or it is new and means just that. -/
theorem reads (visitedBody : ⟨body, false, (name, param.ref) :: env⟩ ∈ visits false whole [])
    (visited : ⟨function, false, env⟩ ∈ visits false after []) (inside : part ∈ function.subterms)
    (isName : part.kind = .ident spelled) :
    (∃ (front : Environment) (listed : Bool), ⟨part, listed, front ++ (name, param.ref) :: env⟩
      ∈ visits false whole [] ∧ (⟨part, listed, front ++ env⟩ ∈ visits false after [] ∧
        (Model.build tree).declarationOf part.ref ≠ some param.ref ∨
        ∃ copy, IsUnder copy function part ∧
          ⟨part, listed, front ++ (name, copy.ref) :: env⟩ ∈ visits false after [])) ∨
    ¬tree.HasRef part.ref ∧ spelled = name ∧ ∃ copy listed, IsUnder copy function part ∧
      ⟨part, listed, (name, copy.ref) :: env⟩ ∈ visits false after [] := by
  have sortBody : body.kind.sort ∈ [NodeSort.expression, .argument] := sort ▸ .head _
  cases moves with
  | @called call callee arguments exposed form unused =>
    have held : function ∈ call.children := by simp [Term.children, form, parts]
    have exposedCallee := exposed.trans (.of_child (by rw [form]; rfl) held)
    obtain ⟨front, listed, before, elsewhere⟩ :=
      exposedCallee.exists_visits inPlace sortBody visitedBody inside isName
    exact .inl
      ⟨front, listed, before, .inl ⟨visits_trans visited (elsewhere env), unused part inside⟩⟩
  | alone exposed isLambda =>
    obtain ⟨copy, term, parenthesized, rfl, same, form, below⟩ :=
      isLambda.exists_of_ident (inPlace_shape_param inPlaceParam isParam) inside isName
    obtain ⟨type, isCopy⟩ := exists_of_copied_param isParam same
    obtain ⟨front, listed, before, elsewhere⟩ :=
      (exposed term rfl).1.exists_visits inPlace sortBody visitedBody below isName
    exact .inl ⟨front, listed, before, .inr ⟨copy, ⟨term, parenthesized, form, below⟩,
      visits_trans (visit_body form isCopy visited) (elsewhere _)⟩⟩
  | @refilled call hole inner function place callee arguments exposed form held passes isNew
    isLambda =>
    obtain ⟨copy, term, parenthesized, isBody, same, formLambda, below⟩ :=
      isLambda.exists_of_ident (inPlace_shape_param inPlaceParam isParam) inside isName
    obtain ⟨type, isCopy⟩ := exists_of_copied_param isParam same
    obtain rfl := Option.some.inj isBody
    have under : IsUnder copy function part := ⟨_, parenthesized, formLambda, below⟩
    have visitedCall := visit_body formLambda isCopy visited
    have onceCall := once.sublist (refs_sublist exposed.mem_subterms)
    have inPlaceCall := inPlace.subterm exposed.mem_subterms
    have isChild : hole ∈ call.children := by simp [Term.children, form, parts, held]
    have holeWithin := child_mem_subterms isChild
    obtain ⟨inPlaceNew, -⟩ := inPlace_refill place name onceCall inPlaceCall form held passes
    have substitutes := Substitutes.of_sort (inPlaceCall.child isChild) inPlaceNew
      (by rw [passes]; simp [Kind.sort]) (by simp [Term.kind, Kind.sort])
    have unique : ∀ other ∈ call.subterms, other.ref = hole.ref → other = hole :=
      fun other isOther same => subterm_unique onceCall isOther holeWithin same
    rcases ident_of_mem_subterms_swap onceCall holeWithin below isName
      with isValue | ⟨inCall, outside⟩
    · -- The name in the hole is read where the hole was read.
      have cases : part = .node hole.note (.argument .plain (some (.node place (.ident name)))) ∨
          part = .node place (.ident name) := by simpa [subterms_node, parts] using isValue
      obtain rfl : part = .node place (.ident name) := cases.resolve_left fun isHole => by
        rw [isHole] at isName
        cases isName
      cases isName
      have visitedHole :=
        (visit_child inPlaceCall (by rw [form]; simp [Kind.sort]) (by rw [form]; rfl) isChild
        (visit_self false call ((name, copy.ref) :: env))).2
      have visitedNew := visit_swap substitutes inPlaceCall unique (fun _ => rfl) visitedHole
      rw [swap_self] at visitedNew
      have heldValue : (Term.node place (.ident name) : Outline) ∈
          parts (.argument .plain (some (.node place (.ident name)))) := by
        simp [parts]
      have visitedValue :=
        (visit_child inPlaceNew (by simp [Term.kind, Kind.sort]) rfl heldValue visitedNew).2
      exact .inr ⟨isNew, rfl, copy, false, under, visits_trans visitedCall visitedValue⟩
    · obtain ⟨front, listed, before, elsewhere⟩ :=
        exposed.exists_visits inPlace sortBody visitedBody inCall isName
      have visitedPart :=
        visit_swap substitutes inPlaceCall unique (fun isHole => absurd isHole outside)
          (elsewhere ((name, copy.ref) :: env))
      rw [swap_of_ident
        (fun here => outside (unique part inCall here ▸ self_mem_subterms _)) isName] at visitedPart
      exact .inl ⟨front, listed, before, .inr ⟨copy, under, visits_trans visitedCall visitedPart⟩⟩

end

end Moves

/-- A name refers to the parameter of the lambda among some functions that it stands in. -/
def RefersToParamOf (tree : Tree) (functions : List Outline) (ref : Ref) : Prop :=
  ∃ function ∈ functions, ∃ param part, IsUnder param function part ∧ part.ref = ref ∧
    (Model.build tree).declarationOf ref = some param.ref

/-- In a tree made from another one, names mean what they meant, but those that meant a parameter
mean that of the function they stand in now, and so do new names. -/
structure KeepsBindings (tree result : Tree) (param : Ref) (functions : List Outline) : Prop where
  /-- Nothing else has become a name, and names are spelled as before. -/
  spelled : ∀ ref ∈ tree.attached, ref ∈ result.attached → ∀ name, result.kind ref = .ident name →
    tree.kind ref = .ident name
  /-- What referred to the parameter refers to that of the function around it. -/
  references : ∀ ref ∈ tree.attached, ref ∈ result.attached →
    ∀ name, result.kind ref = .ident name →
    (Model.build tree).declarationOf ref = some param → result.RefersToParamOf functions ref
  /-- All other names refer to what they referred to, or to nothing as before. -/
  others : ∀ ref ∈ tree.attached, ref ∈ result.attached → ∀ name, result.kind ref = .ident name →
    (Model.build tree).declarationOf ref ≠ some param →
      (Model.build result).declarationOf ref = (Model.build tree).declarationOf ref
  /-- New names refer to the parameter of the function around them. -/
  inserted : ∀ ref ∈ result.attached, ref ∉ tree.attached → ∀ name, result.kind ref = .ident name →
    result.RefersToParamOf functions ref

end Tree

namespace LambdaCall

open Term Refactory.Tree

variable {split : LambdaCall} {tree after : Tree} {whole call param body anchor run : Outline}
  {receiver : Option Outline} {name : String} {calls functions : List Outline}

/-- The body of the lambda and its parameter are parts of the call. -/
theorem Stands.inside (stands : split.Stands tree call receiver (some body) param) :
    body ∈ call.subterms ∧ param ∈ call.subterms := by
  obtain ⟨access, argument, lambda, form, -, formArgument, parenthesized, formLambda⟩ :=
    stands.formed
  have heldArgument : argument ∈ call.children := by simp [Term.children, form, parts]
  have heldLambda : lambda ∈ argument.children := by simp [Term.children, formArgument, parts]
  have below {part : Outline} (held : part ∈ lambda.children) : part ∈ call.subterms :=
    mem_subterms_of_child heldArgument (mem_subterms_of_child heldLambda (child_mem_subterms held))
  exact ⟨below (by simp [Term.children, formLambda, parts]),
    below (by simp [Term.children, formLambda, parts])⟩

section

variable {type : Option Outline} (stands : split.Stands tree call receiver (some body) param)
  (unit : tree.IsUnit whole) (within : call ∈ whole.subterms)
  (isAnchor : anchor.kind = .member receiver split.called.name split.called.conditional)
  (isRun : IsRun split.called.name anchor (run :: calls) functions.reverse)
  (isParam : param.kind = .param type name)
  (moves : ∀ function ∈ functions, tree.Moves name param body function)

include stands unit within isAnchor isRun isParam moves

/-- A run that passes functions that were moved out of the lambda is an expression in place. -/
theorem Stands.run_inPlace : run.All InPlace ∧ run.kind.sort = .expression := by
  obtain ⟨access, argument, lambda, form, formAccess, -⟩ := stands.formed
  obtain ⟨bodyInCall, paramInCall⟩ := stands.inside
  have inPlace := unit.inPlace.subterm within
  have heldAccess : access ∈ call.children := by simp [Term.children, form, parts]
  have once := unit.stands.once.sublist (refs_sublist (subterms_trans within bodyInCall))
  refine isRun.all_inPlace (all_inPlace_anchor (inPlace.child heldAccess) formAccess isAnchor)
    (fun function member => ?_) run rfl
  exact (moves function (List.mem_reverse.1 member)).isExpression once (inPlace.subterm bodyInCall)
    (inPlace.subterm paramInCall) isParam

/-- With the run in the place of the call the tree is that of a unit. -/
theorem Stands.isUnit_swap (program : after.IsProgram (Term.swap call.ref run whole)) :
    after.IsUnit (Term.swap call.ref run whole) := by
  obtain ⟨inPlaceRun, sortRun⟩ := stands.run_inPlace unit within isAnchor isRun isParam moves
  obtain ⟨access, argument, lambda, form, -⟩ := stands.formed
  have sortCall : call.kind.sort = .expression := by rw [form]; rfl
  exact unit.swap within program inPlaceRun (sortRun.trans sortCall.symm) (.inl sortCall)

/-- Putting functions that were moved out of a lambda in the place of its call keeps the
bindings. -/
theorem Stands.keepsBindings (program : after.IsProgram (Term.swap call.ref run whole))
    (apart : param.ref ∉ run.refs) (sort : body.kind.sort = .expression) :
    KeepsBindings tree after param.ref functions := by
  obtain ⟨access, argument, lambda, form, formAccess, formArgument, parenthesized, formLambda⟩ :=
    stands.formed
  have inPlace := unit.inPlace.subterm within
  have sortCall : call.kind.sort = .expression := by rw [form]; rfl
  have heldAccess : access ∈ call.children := by simp [Term.children, form, parts]
  have heldArgument : argument ∈ call.children := by simp [Term.children, form, parts]
  have heldLambda : lambda ∈ argument.children := by simp [Term.children, formArgument, parts]
  have heldReceiver : ∀ term ∈ receiver, term ∈ access.children := by
    simp +contextual [Term.children, formAccess, parts]
  obtain ⟨bodyInCall, paramInCall⟩ := stands.inside
  have onceBody := unit.stands.once.sublist (refs_sublist (subterms_trans within bodyInCall))
  have inPlaceBody := inPlace.subterm bodyInCall
  have inPlaceParam := inPlace.subterm paramInCall
  -- The run is an expression in the place of another one.
  have inPlaceAccess := inPlace.child heldAccess
  have anchored := all_inPlace_anchor inPlaceAccess formAccess isAnchor
  obtain ⟨inPlaceRun, sortRun⟩ := stands.run_inPlace unit within isAnchor isRun isParam moves
  have unitAfter := stands.isUnit_swap unit within isAnchor isRun isParam moves program
  have substitutes : Substitutes run call :=
    .of_sort inPlace inPlaceRun (by rw [sortCall]; exact .head _) (by rw [sortRun]; exact .head _)
  have unique : ∀ part ∈ whole.subterms, part.ref = call.ref → part = call :=
    fun part isPart same =>
    subterm_unique unit.stands.once isPart within same
  -- The parameter is no longer there, so that nothing refers to it.
  have absent : param.ref ∉ (Term.swap call.ref run whole).refs := fun inside => by
    rcases (mem_refs_swap unit.stands.once within).1 inside with ⟨-, outside⟩ | inside
    · exact outside (mem_refs.2 ⟨param, paramInCall, rfl⟩)
    · exact apart inside
  have notParam {visit : Visit} (visited : visit ∈ visits false (Term.swap call.ref run whole) [])
      (spelled : String) :
      visit.env.lookup spelled ≠ some param.ref :=
    fun found => absent (mem_refs_of_visit visited found)
  have before {part : Outline} {listed : Bool} {env : Environment} {spelled : String}
      (visited : ⟨part, listed, env⟩ ∈ visits false whole [])
      (isName : part.kind = .ident spelled) :
      (Model.build tree).declarationOf part.ref = env.lookup spelled :=
    unit.declarationOf_of_visit visited isName
  have afterwards {part : Outline} {listed : Bool} {env : Environment} {spelled : String}
      (visited : ⟨part, listed, env⟩ ∈ visits false (Term.swap call.ref run whole) [])
      (isName : part.kind = .ident spelled) :
      (Model.build after).declarationOf part.ref = env.lookup spelled :=
    unitAfter.declarationOf_of_visit visited isName
  -- A name that is read in one environment before and afterwards keeps its meaning.
  have same {part : Outline} {listed : Bool} {env : Environment} {spelled : String}
      (isName : part.kind = .ident spelled)
      (visited : ⟨part, listed, env⟩ ∈ visits false whole [])
      (visitedAfter : ⟨part, listed, env⟩ ∈ visits false (Term.swap call.ref run whole) []) :
      (Model.build tree).declarationOf part.ref ≠ some param.ref ∧
        (Model.build after).declarationOf part.ref = (Model.build tree).declarationOf part.ref := by
    rw [before visited isName, afterwards visitedAfter isName]
    exact ⟨notParam visitedAfter spelled, rfl⟩
  obtain ⟨listed, env, visited⟩ :=
    exists_visit unit.inPlace within (by rw [sortCall]; simp) false []
  have sortOf : call.kind.sort ∈ [NodeSort.expression, .argument] := by rw [sortCall]; exact .head _
  have closedCall : call.kind.opensScope = false := by rw [form]; rfl
  obtain ⟨sortAccess, visitedAccess⟩ := visit_child inPlace sortOf closedCall heldAccess visited
  obtain ⟨sortArgument, visitedArgument⟩ :=
    visit_child inPlace sortOf closedCall heldArgument visited
  have visitedLambda :=
    (visit_child (inPlace.child heldArgument) sortArgument (by rw [formArgument]; rfl) heldLambda
    visitedArgument).2
  have visitedBody := visit_body formLambda isParam visitedLambda
  have visitedRun := visit_swap substitutes unit.inPlace unique (fun _ => rfl) visited
  rw [swap_self] at visitedRun
  obtain ⟨visitedAnchor, visitedFunctions⟩ := isRun.visits rfl inPlaceRun visitedRun
  -- Each name stands outside of the call, in the receiver or in one of the functions.
  have each {part : Outline} {spelled : String}
      (inside : part ∈ (Term.swap call.ref run whole).subterms)
      (isName : part.kind = .ident spelled) : part ∈ whole.subterms ∧
        ((Model.build tree).declarationOf part.ref ≠ some param.ref ∧
            (Model.build after).declarationOf part.ref = (Model.build tree).declarationOf part.ref ∨
          (Model.build tree).declarationOf part.ref = some param.ref ∧
          after.RefersToParamOf functions part.ref) ∨
      ¬tree.HasRef part.ref ∧ after.RefersToParamOf functions part.ref := by
    have sortName : part.kind.sort ∉ [NodeSort.type, .param] := by rw [isName]; simp [Kind.sort]
    rcases ident_of_mem_subterms_swap unit.stands.once within inside isName
      with inRun | ⟨inWhole, outside⟩
    · rcases isRun.cases_of_ident isAnchor rfl inRun isName
        with inReceiver | ⟨function, member, inFunction⟩
      · obtain ⟨term, held, below⟩ := List.mem_flatMap.1 inReceiver
        have held := Option.mem_toList.1 held
        have inAccess := heldReceiver term held
        have visitedTerm :=
          (visit_child inPlaceAccess sortAccess (by rw [formAccess]; rfl) inAccess visitedAccess).2
        have heldAnchor : term ∈ anchor.children := by
          simp [Term.children, isAnchor, parts, Option.mem_def.1 held]
        have visitedTermAfter :=
          (visit_child anchored.1 (by rw [anchored.2]; exact .head _) (by rw [isAnchor]; rfl)
          heldAnchor visitedAnchor).2
        obtain ⟨listed', env', visitedPart⟩ :=
          exists_visit (inPlaceAccess.child inAccess) below sortName false env
        refine .inl ⟨subterms_trans within
          (mem_subterms_of_child heldAccess (mem_subterms_of_child inAccess below)), .inl ?_⟩
        exact same isName (visits_trans visitedTerm visitedPart)
          (visits_trans visitedTermAfter visitedPart)
      · have isFunction := List.mem_reverse.1 member
        have referring {copy : Outline} (under : IsUnder copy function part)
            (refers : (Model.build after).declarationOf part.ref = some copy.ref) :
            after.RefersToParamOf functions part.ref :=
          ⟨function, isFunction, copy, part, under, rfl, refers⟩
        rcases (moves function isFunction).reads onceBody inPlaceBody inPlaceParam isParam sort
          visitedBody (visitedFunctions function member) inFunction isName with ⟨front, listed',
            visitedPart, stays⟩ | ⟨isNew, rfl, copy, listed', under, visitedPart⟩
        · refine .inl ⟨part_of_visit visitedPart, ?_⟩
          have meant := before visitedPart isName
          rcases stays with ⟨visitedAfter, unused⟩ | ⟨copy, under, visitedAfter⟩
          · refine .inl ⟨unused, ?_⟩
            rw [meant] at unused ⊢
            rw [afterwards visitedAfter isName, Environment.lookup_of_unused unused]
          · have means := afterwards visitedAfter isName
            refine (Environment.lookup_rebound (notParam visitedAfter spelled)).imp ?_ ?_
            · rintro ⟨unused, same⟩
              rw [meant, means]
              exact ⟨unused, same⟩
            · rintro ⟨was, now⟩
              exact ⟨meant.trans was, referring under (means.trans now)⟩
        · exact .inr
            ⟨isNew, referring under ((afterwards visitedPart isName).trans List.lookup_cons_self)⟩
    · obtain ⟨listed', env', visitedPart⟩ := exists_visit unit.inPlace inWhole sortName false []
      have visitedAfter :=
        visit_swap substitutes unit.inPlace unique (fun isPart => absurd isPart outside) visitedPart
      rw [swap_of_ident (fun here =>
        outside (unique part inWhole here ▸ self_mem_subterms _)) isName] at visitedAfter
      exact .inl ⟨inWhole, .inl (same isName visitedPart visitedAfter)⟩
  have exists_part {ref : Ref} {spelled : String} (attached : ref ∈ after.attached)
      (isName : after.kind ref = .ident spelled) :
      ∃ part ∈ (Term.swap call.ref run whole).subterms, part.ref = ref ∧
        part.kind = .ident spelled := by
    rw [program.attached] at attached
    obtain ⟨part, inside, rfl⟩ := mem_refs.1 attached
    have depicts := (program.stands.shows inside).depicts
    rw [isName] at depicts
    exact ⟨part, inside, rfl, depicts.ident⟩
  have stored {ref : Ref} (attached : ref ∈ tree.attached) : tree.HasRef ref :=
    unit.stands.hasRef (unit.attached ▸ attached)
  refine ⟨fun ref attached attachedAfter spelled isName =>
    ?_, fun ref attached attachedAfter spelled isName refers =>
    ?_, fun ref attached attachedAfter spelled isName refers =>
    ?_, fun ref attachedAfter isNew spelled isName => ?_⟩
  all_goals
    obtain ⟨part, inside, rfl, isIdent⟩ := exists_part attachedAfter isName
    rcases each inside isIdent with ⟨inWhole, cases⟩ | ⟨unstored, bound⟩
  · have depicts := (unit.stands.shows inWhole).depicts
    rw [isIdent] at depicts
    exact depicts.of_ident
  · exact absurd (stored attached) unstored
  · exact (cases.resolve_left fun notParam => notParam.1 refers).2
  · exact absurd (stored attached) unstored
  · exact (cases.resolve_right fun isParam => refers isParam.1).2
  · exact absurd (stored attached) unstored
  · exact absurd (unit.attached ▸ mem_refs.2 ⟨part, inWhole, rfl⟩) isNew
  · exact bound

end

/-- The parameter of a call with a simple lambda declares the name of the parameter. -/
theorem Stands.exists_param {body : Option Outline}
    (stands : split.Stands tree call receiver body param) :
    ∃ type, param.kind = .param type split.lambda.name := by
  obtain ⟨type, kind⟩ := stands.kind
  have depicts := (stands.standing.each param (by simp)).shown.here.depicts
  rw [kind] at depicts
  obtain ⟨type, isParam, -⟩ := depicts.param
  exact ⟨type, isParam⟩

/-- A copy of a parameter makes a lambda over one that is written alike. -/
theorem IsLambdaOver.isLambda {body : Option Outline} {function : Outline}
    (isOver : split.IsLambdaOver tree param body function) :
    IsLambda param.shape body function := by
  obtain ⟨place, copy, -, same, rfl⟩ := isOver
  exact ⟨place, copy, split.lambda.parenthesized, same, rfl⟩

/-- The functions of layers are moved out of the lambda. -/
theorem Composes.moves {symbol : SymbolId} {layers : List Layer} {function : Outline}
    (unit : tree.IsUnit whole) (composes : split.Composes tree (Model.build tree)
      (.symbol symbol) param layers inner functions)
    (isSymbol : (Model.build tree).declaredSymbol param.ref = some symbol)
    (inWhole : body ∈ whole.subterms)
    (exposed : Exposed inner body) (member : function ∈ functions) :
    tree.Moves split.lambda.name param body function := by
  -- What does not use the symbol of the parameter does not refer to the parameter.
  have unused {call callee : Outline} {hole : Outline} {value : Option Outline}
      {arguments : List Outline} {layer : Layer}
      (isLayer : IsLayer ((Referent.symbol symbol).isReferencedIn tree (Model.build tree)) layer
        call hole value (some callee) arguments) (exposed : Exposed call body) :
      ∀ part ∈ callee.subterms, (Model.build tree).declarationOf part.ref ≠ some param.ref := by
    intro part below refers
    obtain ⟨symbol', refersTo, isSymbol'⟩ := unit.exists_symbol_of_declarationOf refers
    obtain rfl : symbol = symbol' := Option.some.inj (isSymbol.symm.trans isSymbol')
    have held : callee ∈ call.children := by simp [Term.children, isLayer.form, parts]
    have inCall := subterms_trans inWhole (subterms_child exposed.mem_subterms held)
    have standsCallee := unit.stands.subterm inCall
    obtain ⟨nodes, consistent, -⟩ := unit.exists_consistent
    obtain ⟨part', inside, samePart, spelled, isName⟩ :=
      unit.toIsProgram.exists_ident_of_symbolOf (Option.isSome_iff_exists.2 ⟨symbol, refersTo⟩)
    have depicts := (unit.stands.shows inside).depicts
    rw [isName] at depicts
    have free := isLayer.free
    rw [Referent.isReferencedIn, refOf_some, standsCallee.descendants, List.any_eq_false] at free
    refine free part.ref (mem_refs.2 ⟨part, below, rfl⟩) ?_
    rw [Referent.isAt, ← samePart, depicts.of_ident, samePart, refersTo]
    exact beq_self_eq_true _
  induction composes with
  | @last layer call hole function' value callee arguments isLayer isArgument isFunction =>
    obtain rfl := List.mem_singleton.1 member
    rcases isFunction with ⟨form, -⟩ | isOver
    · obtain ⟨rfl, rfl⟩ : callee = some function ∧ arguments = [hole] := by
        have same := isLayer.form.symm.trans form
        cases same
        exact ⟨rfl, rfl⟩
      exact .called exposed form (unused isLayer exposed)
    · refine .alone (fun term held => ?_) isOver.isLambda
      obtain rfl := Option.some.inj held
      exact ⟨exposed, by rw [isLayer.form]; rfl⟩
  | @snoc layer layers call hole inner function' callee arguments functions place isLayer others
    isNew isFunction ih =>
    rcases List.mem_append.1 member with member | member
    · have closed : call.kind.opensScope = false := by rw [isLayer.form]; rfl
      have closedHole : hole.kind.opensScope = false := by rw [isLayer.passes]; rfl
      exact ih (exposed.trans
        (.child closed isLayer.isChild (.of_child closedHole isLayer.innerChild))) member
    · obtain rfl := List.mem_singleton.1 member
      rcases isFunction with ⟨form, -⟩ | isOver
      · obtain ⟨rfl, rfl⟩ : callee = some function ∧ arguments = [hole] := by
          have same := isLayer.form.symm.trans form
          cases same
          exact ⟨rfl, rfl⟩
        exact .called exposed form (unused isLayer exposed)
      · exact .refilled exposed isLayer.form isLayer.held isLayer.passes isNew isOver.isLambda

end LambdaCall

namespace Term

variable {α : Type}

/-- What has two operands or more is a conjunction. -/
theorem exists_of_two_le {child : Option (Term α)} (several : 2 ≤ (conjunctsOf child).length) :
    ∃ term left right, child = some term ∧ term.kind = .binary .and left right := by
  cases child with
  | none => simp [conjunctsOf] at several
  | some term =>
    rcases term with ⟨note, form⟩
    rw [conjunctsOf, conjuncts.eq_def] at several
    split at several
    · rename_i left right same
      cases same
      exact ⟨_, left, right, rfl, rfl⟩
    · simp at several
    · simp at several

/-- The names in an expression are inside the parentheses around it. -/
theorem mem_subterms_of_bareOf {term inner part : Term α} {name : String}
    (isBare : bareOf (some term) = some inner)
    (inside : part ∈ term.subterms) (isName : part.kind = .ident name) : part ∈ inner.subterms := by
  rw [bareOf] at isBare
  induction term using Term.induction with
  | step note form ih =>
    cases form
    case paren child =>
      rw [subterms_node] at inside
      rcases List.mem_cons.1 inside with rfl | inside
      · cases isName
      · obtain ⟨term, held, below⟩ := List.mem_flatMap.1 inside
        obtain rfl : child = some term := by simpa [parts] using held
        exact ih term held isBare below
    all_goals
      obtain rfl := Option.some.inj isBare
      exact inside

/-- An expression in parentheses is one with them. -/
theorem sort_of_bareOf {term : Outline} (isBare : bareOf (some term) = some inner)
    (sort : inner.kind.sort = .expression) : term.kind.sort = .expression := by
  rcases term with ⟨place, form⟩
  cases form
  case paren => rfl
  all_goals
    cases isBare
    exact sort

end Term

end Refactory
