import Refactory.Proofs.Refactoring.Applied
import Refactory.Proofs.Refactoring.SplitBindings

/-!
# Layers as functions

A split projection has a function for each layer of its composition. A function is the call of its
layer with a hole in the place of the layer inside (`Tree.AppliesAs`): for a lambda this is so since
the split keeps bindings, so that the only reference to the new parameter is the old one or the
name that was put in the place of the layer inside. Applied one after the other, the functions
give the composition again (`LambdaCall.Composes.appliesAs`). Merging finds them as functions that
can be composed (`Tree.AppliesAs.computes`), and to apply one is to fill the hole
(`Tree.AppliesAs.applied_eq`).
-/
namespace Refactory

open Term Refactory.Tree

variable {layers : List Layer}

namespace Tree

variable {tree after : Tree} {whole whole' part : Outline}

/-- What refers to a declaration is a name. -/
theorem IsUnit.exists_ident_of_declarationOf {declaration : Ref} (unit : tree.IsUnit whole)
    (inside : part ∈ whole.subterms)
    (refers : (Model.build tree).declarationOf part.ref = some declaration) :
    ∃ name, part.kind = .ident name := by
  obtain ⟨symbol, isSymbol, -⟩ := unit.exists_symbol_of_declarationOf refers
  obtain ⟨other, within, same, name, isName⟩ :=
    unit.toIsProgram.exists_ident_of_symbolOf (Option.isSome_iff_exists.2 ⟨symbol, isSymbol⟩)
  rw [subterm_unique unit.stands.once within inside same] at isName
  exact ⟨name, isName⟩

/-- What refers to the symbol of a declaration are the names that refer to the declaration. -/
theorem IsUnit.isAt_iff {declaration : Ref} {symbol : SymbolId} (unit : tree.IsUnit whole)
    (declares : (Model.build tree).declaredSymbol declaration = some symbol)
    (inside : part ∈ whole.subterms) :
    (Referent.symbol symbol).isAt tree (Model.build tree) part.ref = true ↔
      (∃ name, part.kind = .ident name) ∧
      (Model.build tree).declarationOf part.ref = some declaration := by
  have shows := unit.stands.shows inside
  constructor
  · intro refers
    obtain ⟨name, isName, isSymbol⟩ := shows.exists_ident_of_isAt refers
    exact ⟨⟨name, isName⟩, unit.declarationOf_of_symbolOf isSymbol declares⟩
  · rintro ⟨⟨name, isName⟩, refers⟩
    obtain ⟨symbol', isSymbol, declares'⟩ := unit.exists_symbol_of_declarationOf refers
    have depicts := shows.depicts
    rw [isName] at depicts
    rw [Referent.isAt, depicts.of_ident, isSymbol, ← declares', declares]
    exact beq_self_eq_true _

/-- Nothing refers to a symbol in what does not have a reference to it. -/
theorem Stands.isAt_of_unreferenced {term : Outline} {model : Model} {referent : Referent}
    (stands : tree.Stands term) (unreferenced : referent.isReferencedIn tree model term.ref = false)
    (inside : part ∈ term.subterms) :
    referent.isAt tree model part.ref = false := by
  rw [Referent.isReferencedIn, stands.descendants, List.any_eq_false] at unreferenced
  exact Bool.eq_false_iff.2 (unreferenced part.ref (mem_refs.2 ⟨part, inside, rfl⟩))

/-- All references to the parameter are in what a layer passes. -/
theorem IsLayer.mem_of_isAt {model : Model} {symbol : SymbolId} {layer : Layer}
    {call hole reference : Outline}
    {callee : Option Outline} {arguments : List Outline}
    (isLayer : IsLayer ((Referent.symbol symbol).isReferencedIn tree model) layer call hole
      (some reference) callee arguments)
    (stands : tree.Stands call) (inPlace : call.All InPlace) (inside : part ∈ call.subterms)
    (refers : (Referent.symbol symbol).isAt tree model part.ref = true) :
    part ∈ reference.subterms := by
  obtain ⟨name, isName, -⟩ := (stands.shows inside).exists_ident_of_isAt refers
  have noReference {term : Outline} (within : term ∈ call.subterms)
      (unreferenced : (Referent.symbol symbol).isReferencedIn tree model term.ref = false) :
      part ∉ term.subterms := fun below =>
    Bool.eq_false_iff.1 ((stands.subterm within).isAt_of_unreferenced unreferenced below) refers
  rw [subterms_eq] at inside
  rcases List.mem_cons.1 inside with rfl | inside
  · rw [isLayer.form] at isName
    cases isName
  obtain ⟨child, held, inside⟩ := List.mem_flatMap.1 inside
  have among : child ∈ callee ∨ child ∈ arguments := by
    simpa [Term.children, isLayer.form, parts] using held
  rcases among with isCallee | isArgument
  · refine absurd inside (noReference (child_mem_subterms held) ?_)
    have free := isLayer.free
    rwa [Option.mem_def.1 isCallee] at free
  -- An argument passes something, and the part is in what it passes.
  obtain ⟨modifier, value, passes⟩ : ∃ modifier value, child.kind = .argument modifier value := by
    have sorts := inPlace.here.sorts
    rw [isLayer.form] at sorts
    simp only [Kind.slots, Kind.childSorts, List.forall₂_cons, fits_many,
      List.mem_singleton] at sorts
    have sort := sorts.2.1 child isArgument
    cases isKind : child.kind
    case argument modifier value => exact ⟨modifier, value, rfl⟩
    all_goals rw [isKind] at sort; cases sort
  rw [subterms_eq] at inside
  rcases List.mem_cons.1 inside with rfl | inside
  · rw [passes] at isName
    cases isName
  obtain ⟨term, heldTerm, inside⟩ := List.mem_flatMap.1 inside
  obtain rfl : value = some term := by simpa [Term.children, passes, parts] using heldTerm
  by_cases isHole : child.ref = hole.ref
  · obtain rfl : child = hole := subterm_unique stands.once (child_mem_subterms held)
      (child_mem_subterms isLayer.isChild) isHole
    rw [isLayer.passes] at passes
    cases passes
    exact inside
  · exact absurd inside (noReference (mem_subterms_of_child held (child_mem_subterms heldTerm))
      (isLayer.others child isArgument isHole _ _ passes))

/-- A layer over a parameter of another name passes what it passed, with the parameter renamed. -/
theorem IsLayer.shapeNaming_eq {model : Model} {symbol : SymbolId} {layer : Layer}
    {call hole reference : Outline}
    {callee : Option Outline} {arguments : List Outline}
    (isLayer : IsLayer ((Referent.symbol symbol).isReferencedIn tree model) layer call hole
      (some reference) callee arguments)
    (stands : tree.Stands call) (inPlace : call.All InPlace) (name : String) :
    call.shapeNaming ((Referent.symbol symbol).isAt tree model) name
      = call.passing hole (reference.shapeNaming ((Referent.symbol symbol).isAt tree model) name) :=
  shapePutting_eq_passing stands.once isLayer.form isLayer.held isLayer.passes
    fun _ inside refers =>
    isLayer.mem_of_isAt stands inPlace inside refers

/-- The functions of a run that keep bindings, each with the parameter that it has. -/
structure Rebinds (tree after : Tree) (whole whole' : Outline) (param : Ref) (symbol : SymbolId)
    (functions : List Outline) :
    Prop where
  /-- The tree before is that of a unit. -/
  unit : tree.IsUnit whole
  /-- So is the tree afterwards. -/
  unitAfter : after.IsUnit whole'
  /-- The old parameter has a symbol. -/
  declares : (Model.build tree).declaredSymbol param = some symbol
  /-- The functions keep the bindings. -/
  keeps : KeepsBindings tree after param functions
  /-- They are in the tree afterwards. -/
  within : ∀ function ∈ functions, function ∈ whole'.subterms
  /-- They stand apart from each other. -/
  standing : after.StandsAll functions

namespace Rebinds

variable {param : Ref} {symbol symbol' : SymbolId} {functions : List Outline}
  {function copy body : Outline} {parenthesized : Bool}
  (rebinds : Rebinds tree after whole whole' param symbol functions) (member : function ∈ functions)
  (form : function.kind = .lambda [copy] (some body) parenthesized)

include rebinds member form

theorem mem_of_mem_body (inside : part ∈ body.subterms) :
    part ∈ function.subterms ∧ part ∈ whole'.subterms := by
  have held : body ∈ function.children := by simp [Term.children, form, parts]
  have inFunction := mem_subterms_of_child held inside
  exact ⟨inFunction, subterms_trans (rebinds.within function member) inFunction⟩

/-- What refers to the parameter of the function around it refers to that of the lambda whose body
it is in. -/
theorem declarationOf_eq (inside : part ∈ body.subterms)
    (refers : after.RefersToParamOf functions part.ref) :
    (Model.build after).declarationOf part.ref = some copy.ref := by
  obtain ⟨other, isOther, param', part', ⟨body', _, form', inside'⟩, same, refersTo⟩ := refers
  obtain ⟨inFunction, inWhole⟩ := rebinds.mem_of_mem_body member form inside
  obtain ⟨inOther, inWhole'⟩ := rebinds.mem_of_mem_body isOther form' inside'
  obtain rfl : part' = part := subterm_unique rebinds.unitAfter.stands.once inWhole' inWhole same
  obtain rfl : other = function := by
    by_contra differ
    exact disjoint_of_nodup rebinds.standing.once isOther member differ
      (mem_refs.2 ⟨_, inOther, rfl⟩) (mem_refs.2 ⟨_, inFunction, rfl⟩)
  rw [form] at form'
  cases form'
  exact refersTo

/-- In the body of a function what refers to its parameter is what referred to the old one. -/
theorem isAt_eq (isNew : ¬tree.HasRef copy.ref)
    (declares : (Model.build after).declaredSymbol copy.ref = some symbol')
    (inside : part ∈ body.subterms) (inWhole : part ∈ whole.subterms) :
    (Referent.symbol symbol').isAt after (Model.build after) part.ref
      = (Referent.symbol symbol).isAt tree (Model.build tree) part.ref := by
  obtain ⟨-, inWhole'⟩ := rebinds.mem_of_mem_body member form inside
  rw [Bool.eq_iff_iff, rebinds.unitAfter.isAt_iff declares inWhole',
    rebinds.unit.isAt_iff rebinds.declares inWhole]
  refine and_congr_right fun ⟨name, isName⟩ => ?_
  have attached : part.ref ∈ tree.attached :=
    rebinds.unit.attached ▸ mem_refs.2 ⟨part, inWhole, rfl⟩
  have attachedAfter : part.ref ∈ after.attached :=
    rebinds.unitAfter.attached ▸ mem_refs.2 ⟨part, inWhole', rfl⟩
  have isIdent : after.kind part.ref = .ident name := by
    have depicts := (rebinds.unitAfter.stands.shows inWhole').depicts
    rw [isName] at depicts
    exact depicts.of_ident
  by_cases refers : (Model.build tree).declarationOf part.ref = some param
  · have refersAfter := rebinds.keeps.references _ attached attachedAfter name isIdent refers
    simp [refers, rebinds.declarationOf_eq member form inside refersAfter]
  · rw [rebinds.keeps.others _ attached attachedAfter name isIdent refers]
    refine iff_of_false (fun refersToCopy => isNew ?_) refers
    exact rebinds.unit.stands.hasRef (rebinds.unit.mem_refs_of_declarationOf refersToCopy)

/-- A new name in the body of a function refers to its parameter. -/
theorem isAt_inserted {name : String}
    (declares : (Model.build after).declaredSymbol copy.ref = some symbol')
    (inside : part ∈ body.subterms) (isName : part.kind = .ident name)
    (isNew : ¬tree.HasRef part.ref) :
    (Referent.symbol symbol').isAt after (Model.build after) part.ref = true := by
  obtain ⟨-, inWhole'⟩ := rebinds.mem_of_mem_body member form inside
  have attachedAfter : part.ref ∈ after.attached :=
    rebinds.unitAfter.attached ▸ mem_refs.2 ⟨part, inWhole', rfl⟩
  have notAttached : part.ref ∉ tree.attached :=
    fun attached => isNew (rebinds.unit.stands.hasRef (rebinds.unit.attached ▸ attached))
  have depicts := (rebinds.unitAfter.stands.shows inWhole').depicts
  rw [isName] at depicts
  have refers := rebinds.keeps.inserted _ attachedAfter notAttached name depicts.of_ident
  exact (rebinds.unitAfter.isAt_iff declares inWhole').2
    ⟨⟨name, isName⟩, rebinds.declarationOf_eq member form inside refers⟩

end Rebinds

section

variable {name : String} {function : Outline} {fill : Shape → Shape}

/-- A function is a call with a hole for what it is applied to: what the call calls is named and
the hole is its only argument, or a lambda is written over the call, and what it passes in the hole
is the only reference to the parameter. -/
inductive AppliesAs (tree : Tree) (name : String) : Outline → (Shape → Shape) → Prop
  /-- A named function. -/
  | named {root path call hole : Outline} {members : List String}
      (isPath : IsPath root members path)
      (once : call.refs.Nodup) (form : call.kind = .invoke (some path) [hole]) :
      AppliesAs tree name path (call.passing hole)
  /-- A lambda. -/
  | written {lambda param call hole reference : Outline} {type callee : Option Outline}
      {arguments : List Outline} {parenthesized : Bool} {symbol : SymbolId}
      (form : lambda.kind = .lambda [param] (some call) parenthesized)
      (isParam : param.kind = .param type name)
      (declares : (Model.build tree).declaredSymbol param.ref = some symbol)
      (formCall : call.kind = .invoke callee arguments) (held : hole ∈ arguments)
      (passes : hole.kind = .argument .plain (some reference))
      (hits : ∀ part ∈ call.subterms, (Referent.symbol symbol).isAt tree (Model.build tree) part.ref
        = (part.ref == reference.ref)) :
      AppliesAs tree name lambda (call.passing hole)

/-- Merging finds such a function as one that can be composed. -/
theorem AppliesAs.computes {placeholder : String} (applies : tree.AppliesAs name function fill)
    (stored : tree.Stored) (stands : tree.Stands function) :
    Abstraction.Computes tree (Model.build tree) placeholder name function fill := by
  cases applies with
  | named isPath once form => exact Abstraction.computes_of_path stored stands isPath once form
  | written form isParam declares formCall held passes hits =>
    exact Abstraction.computes_of_lambda stands form isParam declares formCall held passes hits

/-- What comes of a function that is applied to an expression: the body of a lambda with the
expression in the place of what refers to the parameter, or a call of what is named. -/
def applied (tree : Tree) (function : Outline) (value : Shape) : Shape :=
  match function.kind with
  | .lambda [param] (some body) _ =>
    body.shapePutting (fun ref => (Model.build tree).declarationOf ref == some param.ref)
      fun _ => value
  | _ => .node () (.invoke (some function.shape) [.node () (.argument .plain (some value))])

/-- To apply a function is to fill its hole. -/
theorem AppliesAs.applied_eq (applies : tree.AppliesAs name function fill)
    (unit : tree.IsUnit whole)
    (within : function ∈ whole.subterms) (value : Shape) :
    tree.applied function value = fill value := by
  cases applies with
  | named isPath once form =>
    rw [passing_of_single once form, applied]
    split
    · rename_i isLambda
      exact absurd isLambda (isPath.kind_ne_lambda _ _ _)
    · rfl
  | @written _ param call hole reference _ _ _ _ _ form _ declares formCall held passes hits =>
    have heldCall : call ∈ function.children := by simp [Term.children, form, parts]
    have heldHole : hole ∈ call.children := by simp [Term.children, formCall, parts, held]
    have heldReference : reference ∈ hole.children := by simp [Term.children, passes, parts]
    have inWhole {part : Outline} (inside : part ∈ call.subterms) : part ∈ whole.subterms :=
      subterms_trans within (mem_subterms_of_child heldCall inside)
    have once := (unit.stands.subterm (inWhole (self_mem_subterms call))).once
    -- What refers to the parameter is the reference in the hole.
    have refers {part : Outline} (inside : part ∈ call.subterms) :
        ((Model.build tree).declarationOf part.ref == some param.ref) =
        (part.ref == reference.ref) := by
      rw [← hits part inside, Bool.eq_iff_iff, beq_iff_eq, unit.isAt_iff declares (inWhole inside)]
      refine ⟨fun refers => ⟨?_, refers⟩, fun both => both.2⟩
      exact unit.exists_ident_of_declarationOf (inWhole inside) refers
    have isReference : reference ∈ call.subterms :=
      mem_subterms_of_child heldHole (child_mem_subterms heldReference)
    rw [applied, form]
    dsimp only
    rw [shapePutting_eq_passing once formCall held passes fun part inside here => ?_]
    · have isHit := (refers isReference).trans (beq_self_eq_true _)
      rcases reference with ⟨place, kind⟩
      rw [ref_node] at isHit
      rw [shapePutting_node, if_pos isHit]
    · rw [refers inside, beq_iff_eq] at here
      rw [subterm_unique once inside isReference here]
      exact self_mem_subterms reference

/-- Functions are applied one after the other by filling their holes. -/
theorem foldl_applied {functions : List Outline} {fills : List (Shape → Shape)}
    (each : List.Forall₂ (tree.AppliesAs name) functions fills) (unit : tree.IsUnit whole)
    (within : ∀ function ∈ functions, function ∈ whole.subterms) (value : Shape) :
    functions.foldl (fun value function => tree.applied function value) value
      = fills.foldl (fun value fill => fill value) value := by
  induction each generalizing value with
  | nil => rfl
  | cons applies _ ih =>
    rw [List.foldl_cons, List.foldl_cons, applies.applied_eq unit (within _ (.head _))]
    exact ih (fun function member => within function (.tail _ member)) _

end

end Tree

/-- A call with another value in one of its arguments passes it there. -/
theorem Term.exists_of_refill {call hole value : Outline} {callee : Option Outline}
    {arguments : List Outline}
    (once : call.refs.Nodup) (form : call.kind = .invoke callee arguments)
    (held : hole ∈ arguments) :
    ∃ callee' arguments', (refill hole value call).kind = .invoke callee' arguments' ∧
      (.node hole.note (.argument .plain (some value)) : Outline) ∈ arguments' := by
  have heldHole : hole ∈ call.children := by simp [Term.children, form, parts, held]
  have above : call.ref ≠ hole.ref := ref_ne_of_child once heldHole (self_mem_subterms hole)
  refine ⟨_, _, (kind_swap_of_ne above).trans (by rw [form]; rfl), ?_⟩
  have heldNew :=
    List.mem_map_of_mem (f := swap hole.ref (.node hole.note (.argument .plain (some value)))) held
  rwa [swap_self] at heldNew

namespace LambdaCall

variable {split : LambdaCall} {tree after : Tree} {whole whole' param : Outline} {symbol : SymbolId}
  {functions : List Outline}

/-- A function that was made of a layer is the layer with the value in its hole, where what refers
to the parameter of a lambda over it is just what stands there. -/
theorem IsFunctionOf.appliesAs {call hole body function hole' reference : Outline}
    {callee : Option Outline} {arguments : List Outline}
    (rebinds : Rebinds tree after whole whole' param.ref symbol functions)
    {type : Option Outline} (isParam : param.kind = .param type split.lambda.name)
    (isFunction : split.IsFunctionOf tree param call hole body function)
    (member : function ∈ functions) (once : call.refs.Nodup)
    (form : body.kind = .invoke callee arguments) (held : hole' ∈ arguments)
    (passes : hole'.kind = .argument .plain (some reference))
    (same : body.passing hole' = call.passing hole)
    (hits : ∀ copy parenthesized symbol', function.kind = .lambda [copy] (some body) parenthesized →
      ¬tree.HasRef copy.ref → (Model.build after).declaredSymbol copy.ref = some symbol' →
        ∀ part ∈ body.subterms, (Referent.symbol symbol').isAt after (Model.build after) part.ref
          = (part.ref == reference.ref)) :
    after.AppliesAs split.lambda.name function (call.passing hole) := by
  rcases isFunction
    with ⟨formCall, root, members, isPath⟩ | ⟨place, copy, isNew, copied, sameLambda⟩
  · exact .named isPath once formCall
  · have formFunction := congrArg Term.kind sameLambda
    rw [Term.kind] at formFunction
    obtain ⟨type, isCopy⟩ := exists_of_copied_param isParam copied
    have heldCopy : copy ∈ function.children := by simp [Term.children, formFunction, parts]
    obtain ⟨symbol', declares⟩ := rebinds.unitAfter.exists_symbol
      (subterms_child (rebinds.within function member) heldCopy)
      (by rw [isCopy]; rfl)
    rw [← same]
    exact .written formFunction isCopy declares form held passes
      (hits _ _ symbol' formFunction isNew declares)

/-- The functions of layers compose to the composition over a parameter of any name. -/
theorem Composes.appliesAs {inner : Outline} {made : List Outline}
    (composes : split.Composes tree (Model.build tree) (.symbol symbol) param layers inner made)
    (rebinds : Rebinds tree after whole whole' param.ref symbol functions)
    {type : Option Outline} (isParam : param.kind = .param type split.lambda.name)
    (subset : made ⊆ functions) (inWhole : inner ∈ whole.subterms) :
    ∃ fills, List.Forall₂ (after.AppliesAs split.lambda.name) made fills ∧
      ∀ name, fills.foldl (fun passed fill => fill passed) (.node () (.ident name)) =
        inner.shapeNaming ((Referent.symbol symbol).isAt tree (Model.build tree)) name := by
  induction composes with
  | @last layer call hole function value callee arguments isLayer isArgument isFunction =>
    have standsCall := rebinds.unit.stands.subterm inWhole
    have inPlace := rebinds.unit.inPlace.subterm inWhole
    obtain ⟨reference, rfl⟩ : ∃ reference, value = some reference := by
      cases value with
      | none => cases isArgument
      | some reference => exact ⟨reference, rfl⟩
    have inCall := subterms_child (child_mem_subterms isLayer.isChild) isLayer.innerChild
    obtain ⟨spelled, isName, -⟩ := (standsCall.shows inCall).exists_ident_of_isAt isArgument
    refine ⟨[call.passing hole], .cons ?_ .nil, fun name => ?_⟩
    · refine isFunction.appliesAs rebinds isParam
        (subset (.head _)) standsCall.once isLayer.form isLayer.held
        isLayer.passes rfl fun copy parenthesized symbol' form isNew declares part inside => ?_
      rw [rebinds.isAt_eq (subset (.head _)) form isNew declares inside
        (subterms_trans inWhole inside), Bool.eq_iff_iff, beq_iff_eq]
      refine ⟨fun refers => ?_, fun here => here ▸ isArgument⟩
      have below := isLayer.mem_of_isAt standsCall inPlace inside refers
      rw [subterms_eq] at below
      simpa [Term.children, isName, parts] using congrArg Term.ref (show part = reference by
        simpa [Term.children, isName, parts] using below)
    · have named : reference.shapeNaming ((Referent.symbol symbol).isAt tree (Model.build tree))
          name = .node () (.ident name) := by
        rcases reference with ⟨place, form⟩
        rw [shapeNaming_node]
        exact if_pos isArgument
      rw [List.foldl_cons, List.foldl_nil, isLayer.shapeNaming_eq standsCall inPlace, named]
  | @snoc layer layers call hole inner function callee arguments made place isLayer others isNew
    isFunction ih =>
    have standsCall := rebinds.unit.stands.subterm inWhole
    have inPlace := rebinds.unit.inPlace.subterm inWhole
    have heldHole := child_mem_subterms isLayer.isChild
    have innerWhole := subterms_trans inWhole (subterms_child heldHole isLayer.innerChild)
    obtain ⟨fills, apply, named⟩ :=
      ih (fun other isOther => subset (List.mem_append_left _ isOther)) innerWhole
    have member := subset (List.mem_append_right made (List.mem_singleton_self function))
    refine ⟨fills ++ [call.passing hole], List.rel_append apply (.cons ?_ .nil), fun name => ?_⟩
    · set reference : Outline := .node place (.ident split.lambda.name)
      obtain ⟨callee', arguments', form', held'⟩ :=
        @exists_of_refill call hole reference callee arguments standsCall.once
        isLayer.form isLayer.held
      set filled : Outline := .node hole.note (.argument .plain (some reference))
      have heldReference : reference ∈ filled.children := by
        simp [filled, Term.children, Term.kind, parts]
      have heldFilled : filled ∈ (refill hole reference call).children := by
        simp [Term.children, form', parts, held']
      have inRefill : reference ∈ (refill hole reference call).subterms :=
        mem_subterms_of_child heldFilled (child_mem_subterms heldReference)
      refine isFunction.appliesAs rebinds isParam member standsCall.once form' held' rfl
        passing_refill fun copy parenthesized symbol' form isNewCopy declares part inside => ?_
      obtain ⟨-, inWhole'⟩ := rebinds.mem_of_mem_body member form inside
      obtain ⟨-, referenceWhole⟩ := rebinds.mem_of_mem_body member form inRefill
      rw [Bool.eq_iff_iff, beq_iff_eq]
      refine ⟨fun refers => ?_, fun here => ?_⟩
      · obtain ⟨spelled, isName, -⟩ :=
          (rebinds.unitAfter.stands.shows inWhole').exists_ident_of_isAt refers
        rcases ident_of_mem_subterms_swap standsCall.once heldHole inside isName
          with isFilled | ⟨inCall, outside⟩
        · have cases : part = filled ∨ part = reference := by
            simpa [filled, reference, subterms_node, parts] using isFilled
          rcases cases with rfl | rfl
          · cases isName
          · rfl
        · rw [rebinds.isAt_eq member form isNewCopy declares inside (subterms_trans inWhole inCall)]
            at refers
          exact absurd (mem_subterms_of_child isLayer.innerChild
            (isLayer.mem_of_isAt standsCall inPlace inCall refers)) outside
      · obtain rfl : part = reference :=
          subterm_unique rebinds.unitAfter.stands.once inWhole' referenceWhole here
        exact rebinds.isAt_inserted member form declares inside rfl isNew
    · rw [List.foldl_append, named, List.foldl_cons, List.foldl_nil,
        isLayer.shapeNaming_eq standsCall inPlace]

/-- A composition is a call. -/
theorem Composes.sort {start : Tree} {model : Model} {referent : Referent} {layers : List Layer}
    {inner : Outline} {made : List Outline}
    (composes : split.Composes start model referent param layers inner made) :
    inner.kind.sort = .expression := by
  cases composes with
  | last isLayer => rw [isLayer.form]; rfl
  | snoc isLayer => rw [isLayer.form]; rfl

theorem Composes.length_eq {start : Tree} {model : Model} {referent : Referent}
    {layers : List Layer} {inner : Outline}
    {made : List Outline} (composes : split.Composes start model referent param layers inner made) :
    layers.length = made.length := by
  induction composes with
  | last => rfl
  | snoc _ _ _ _ ih => simp [ih]

theorem length_layerFunctions (split : LambdaCall) (layers : List Layer) :
    (split.layerFunctions layers).length = layers.length := by
  have reversed : layers.reverse.length = layers.length := List.length_reverse
  rw [layerFunctions, ← reversed]
  cases layers.reverse <;> simp

/-- A part of what a layer calls, or of what it passes besides the value, is in the function that
was made of the layer. -/
theorem IsFunctionOf.mem_subterms {start : Tree} {call hole body function child part : Outline}
    (isFunction : split.IsFunctionOf start param call hole body function)
    (held : child ∈ call.children) (other : child ≠ hole) (inside : part ∈ child.subterms)
    (inBody : part ∈ body.subterms) : part ∈ function.subterms := by
  rcases isFunction with ⟨form, -⟩ | ⟨place, copy, -, -, rfl⟩
  · have isChild : child = function ∨ child = hole := by
      simpa [Term.children, form, parts] using held
    exact isChild.resolve_right other ▸ inside
  · exact mem_subterms_of_child (by simp [Term.children, Term.kind, parts]) inBody

/-- The names in a composition are those in its functions and the reference to the parameter. -/
theorem Composes.cases_of_name {inner part : Outline} {made : List Outline}
    {name : String}
    (composes : split.Composes tree (Model.build tree) (.symbol symbol) param layers inner made)
    (unit : tree.IsUnit whole) (inWhole : inner ∈ whole.subterms) (inside : part ∈ inner.subterms)
    (named : part.kind = .ident name ∨ part.kind.declaredName? = some name) :
    (Referent.symbol symbol).isAt tree (Model.build tree) part.ref = true ∨
      ∃ function ∈ made, part ∈ function.subterms := by
  -- A name in a layer is in what it calls, in what it passes besides the value or in the value.
  have cases_of {layer : Layer} {call hole : Outline} {value callee : Option Outline}
      {arguments : List Outline}
      (isLayer : IsLayer ((Referent.symbol symbol).isReferencedIn tree (Model.build tree)) layer
        call hole value callee arguments)
      (inCall : part ∈ call.subterms) :
      (∃ child ∈ call.children, child ≠ hole ∧ part ∈ child.subterms) ∨
      ∃ term ∈ value, part ∈ term.subterms := by
    rw [subterms_eq] at inCall
    rcases List.mem_cons.1 inCall with rfl | inCall
    · simp [isLayer.form, Kind.declaredName?] at named
    obtain ⟨child, held, below⟩ := List.mem_flatMap.1 inCall
    by_cases other : child = hole
    · rw [other, subterms_eq] at below
      rcases List.mem_cons.1 below with rfl | below
      · simp [isLayer.passes, Kind.declaredName?] at named
      obtain ⟨term, isValue, below⟩ := List.mem_flatMap.1 below
      exact .inr ⟨term, by simpa [Term.children, isLayer.passes, parts] using isValue, below⟩
    · exact .inl ⟨child, held, other, below⟩
  induction composes with
  | @last layer call hole function value callee arguments isLayer isArgument isFunction =>
    rcases cases_of isLayer inside with ⟨child, held, other, below⟩ | ⟨term, rfl, below⟩
    · exact .inr ⟨function, .head _, isFunction.mem_subterms held other below inside⟩
    · have inCall := subterms_child (child_mem_subterms isLayer.isChild) isLayer.innerChild
      have shows := unit.stands.shows (subterms_trans inWhole inCall)
      obtain ⟨_, isName, -⟩ := shows.exists_ident_of_isAt isArgument
      obtain rfl : part = term := by
        simpa [subterms_eq term, Term.children, isName, parts] using below
      exact .inl isArgument
  | @snoc layer layers call hole inner function callee arguments made place isLayer others isNew
    isFunction ih =>
    have standsCall := unit.stands.subterm inWhole
    have heldHole := child_mem_subterms isLayer.isChild
    rcases cases_of isLayer inside with ⟨child, held, other, below⟩ | ⟨term, ⟨⟩, below⟩
    · refine .inr
        ⟨function, List.mem_append_right _ (.head _), isFunction.mem_subterms held other below ?_⟩
      refine mem_subterms_swap_of_disjoint standsCall.once inside heldHole
        fun ref inPart inHole => other ?_
      obtain ⟨shared, isPart, rfl⟩ := mem_refs.1 inPart
      obtain ⟨shared', isShared, same⟩ := mem_refs.1 inHole
      obtain rfl : shared' = shared :=
        subterm_unique standsCall.once (subterms_trans heldHole isShared)
          (mem_subterms_of_child held (subterms_trans below isPart)) same
      exact child_unique standsCall.once held isLayer.isChild (subterms_trans below isPart) isShared
    · refine (ih
        (subterms_trans inWhole (subterms_child heldHole isLayer.innerChild)) below).imp_right ?_
      rintro ⟨function, member, below⟩
      exact ⟨function, List.mem_append_left _ member, below⟩

/-- Such a reference has the name of the parameter. -/
theorem Composes.exists_of_name {inner part : Outline} {made : List Outline}
    {name : String}
    (composes : split.Composes tree (Model.build tree) (.symbol symbol) param layers inner made)
    (unit : tree.IsUnit whole)
    (declares : (Model.build tree).declaredSymbol param.ref = some symbol)
    (isParam : (tree.kind param.ref).declaredName? = some split.lambda.name)
    (inWhole : inner ∈ whole.subterms) (inside : part ∈ inner.subterms)
    (named : part.kind = .ident name ∨ part.kind.declaredName? = some name) :
    name = split.lambda.name ∨ ∃ function ∈ made, part ∈ function.subterms := by
  refine (composes.cases_of_name unit inWhole inside named).imp_left fun refers => ?_
  have inTree := subterms_trans inWhole inside
  obtain ⟨_, -, isSymbol⟩ := (unit.stands.shows inTree).exists_ident_of_isAt refers
  obtain ⟨other, isOther, same, isName⟩ := unit.exists_ident_of_symbolOf isParam declares isSymbol
  obtain rfl : other = part := subterm_unique unit.stands.once isOther inTree same
  simpa [isName, Kind.declaredName?, eq_comm] using named

/-- Where a run over the layers of a composition takes the place of the call, its functions keep the
bindings. -/
theorem Stands.rebinds {call body inner run anchor : Outline} {receiver : Option Outline}
    {layers : List Layer} {calls made : List Outline}
    (stands : split.Stands tree call receiver (some body) param) (unit : tree.IsUnit whole)
    (within : call ∈ whole.subterms) (program : after.IsProgram (Term.swap call.ref run whole))
    (isAnchor : anchor.kind = .member receiver split.called.name split.called.conditional)
    (isRun : IsRun split.called.name anchor (run :: calls) made.reverse)
    (declares : (Model.build tree).declaredSymbol param.ref = some symbol)
    (isBare : bareOf (some body) = some inner)
    (composes : split.Composes tree (Model.build tree) (.symbol symbol) param layers inner made)
    (apart : param.ref ∉ run.refs) :
    Rebinds tree after whole (Term.swap call.ref run whole) param.ref symbol made := by
  obtain ⟨type, isParam⟩ := stands.exists_param
  obtain ⟨_, ⟨⟩, exposed⟩ := exposed_of_bareOf isBare
  obtain ⟨bodyInCall, -⟩ := stands.inside
  have moves (function : Outline) (member : function ∈ made) :
      tree.Moves split.lambda.name param body function :=
    composes.moves unit declares (subterms_trans within bodyInCall) exposed member
  have runInside := @mem_subterms_swap run _ _ unit.stands.once within
  refine ⟨unit, stands.isUnit_swap unit within isAnchor isRun isParam moves program, declares, ?_,
    fun function member => ?_, ?_⟩
  · exact stands.keepsBindings unit within isAnchor isRun isParam moves program apart
      (sort_of_bareOf isBare composes.sort)
  · exact subterms_trans runInside ((isRun.parts_inside rfl).2 function (List.mem_reverse.2 member))
  · exact ((program.stands.subterm runInside).functions_of_isRun isRun rfl).perm
      (List.reverse_perm made)

end LambdaCall

end Refactory
