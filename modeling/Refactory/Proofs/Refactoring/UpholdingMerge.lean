import Refactory.Proofs.Code.Denoting
import Refactory.Proofs.Refactoring.UpholdingSplit

/-!
# Merging and grades

Merging a run of calls leaves a program as a grade asks it to be (`Context.merge_upholds`). What a
function comes to with the name of the parameter in the place of its own is as the grade asks if the
function is (`Abstraction.Denotes.needs_filled`). The two ways of merging are told apart by how
tightly this holds together and by how a body is made of it (`Merging.filters_keeps`,
`Merging.projections_keeps`).
-/
namespace Refactory

open Term Shape Refactory.Tree

namespace Shape

variable {grade : Grade} {shape new old : Shape} {least : Nat}

/-- An expression that holds together tightly may stand where one does. -/
theorem Binds.supplants (binds : Binds grade postfixLevel new) (tight : IsTight old)
    (upholds : Upholds grade new) :
    Supplants grade new old := by
  cases grade with
  | formed => exact (show IsTight new from binds_formed_iff.1 binds).supplants tight upholds
  | sorted =>
    have sort := isExpression_iff_sort.1 tight.isExpression
    refine ⟨upholds,
      ⟨(isExpression_iff_sort.1 binds.1).trans sort.symm, fun bare => ?_, fun isBlock => ?_⟩, nofun⟩
    · obtain ⟨name, isParam⟩ := isBareParam_iff.1 bare
      rw [isParam] at sort
      cases sort
    · have other := sort_of_isStatement (closed_of_isBlock isBlock).1
      rw [sort] at other
      cases other

/-- What may stand for an expression is one that holds together as tightly. -/
theorem Supplants.binds (supplants : Supplants grade new old) (binds : Binds grade least old) :
    Binds grade least new :=
  ⟨isExpression_iff_sort.2 (supplants.serves.suits.sort.trans (isExpression_iff_sort.1 binds.1)),
    fun formed => Nat.le_trans (binds.2 formed) (supplants.level formed)⟩

/-- What is put into parentheses where it is not primary is as a grade asks. -/
theorem Upholds.enclosed (upholds : Upholds grade shape) (binds : Binds grade postfixLevel shape) :
    Upholds grade shape.enclosed ∧ Binds grade postfixLevel shape.enclosed := by
  rw [Shape.enclosed]
  split
  · exact ⟨upholds, binds⟩
  · exact ⟨upholds_paren upholds binds.1, .of_isTight rfl (Nat.le_refl _)⟩

/-- The operand that an expression gives holds together as the right operand of a conjunction has
to. -/
theorem Upholds.operand (upholds : Upholds grade shape)
    (isExpression : Shape.isExpression shape = true) :
    Upholds grade (operand shape) ∧
    Binds grade (BinaryOp.and.precedence + 1) (Shape.operand shape) := by
  rw [Shape.operand]
  split
  · rename_i isAtomic
    refine ⟨upholds, isExpression, fun _ => ?_⟩
    rcases shape with ⟨note, form⟩
    rw [Term.kind] at isAtomic
    cases form with
    | binary op left right => cases op <;> first | exact Nat.le_of_ble_eq_true rfl | cases isAtomic
    | unary op operand => cases op <;> exact Nat.le_of_ble_eq_true rfl
    | _ => first | exact Nat.le_of_ble_eq_true rfl | cases isAtomic
  · exact ⟨upholds_paren upholds isExpression, .of_isTight rfl (by decide)⟩

/-- The conjunction of operands that are as a grade asks is so. -/
theorem needs_conjoined {first : Option Shape} {others : List (Option Shape)} (needs : Needs grade
      (fun shape => Upholds grade shape ∧ Binds grade BinaryOp.and.precedence shape) first)
    (needsOthers : ∀ operand ∈ others, Needs grade (fun shape =>
        Upholds grade shape ∧ Binds grade (BinaryOp.and.precedence + 1) shape) operand) :
    Needs grade (fun shape => Upholds grade shape ∧ Binds grade BinaryOp.and.precedence shape)
    (conjoined first others) := by
  induction others generalizing first with
  | nil => exact needs
  | cons operand others ih =>
    obtain ⟨needsOperand, needsOthers⟩ := List.forall_mem_cons.1 needsOthers
    refine ih (needs_some ?_) needsOthers
    refine ⟨upholds_iff.2 ⟨(meets_binary_iff (by decide)).2 ⟨?_, ?_⟩, fun child held => ?_⟩, rfl,
      fun _ => Nat.le_refl _⟩
    · exact needs.mono fun _ operand => operand.2
    · exact needsOperand.mono fun _ operand => operand.2
    · have cases : child ∈ first ∨ child ∈ operand := by simpa [parts] using held
      rcases cases with held | held
      · exact (needs.1 child held).1
      · exact (needsOperand.1 child held).1

/-- What a body comes to with a tight expression in the place of a parameter is as a grade asks if
the expression is, and it holds together so tightly. -/
def Fills (grade : Grade) (least : Nat) (fill : Shape → Option Shape) : Prop :=
  ∀ filler, Upholds grade filler → Binds grade postfixLevel filler →
    Needs grade (fun shape => Upholds grade shape ∧ Binds grade least shape) (fill filler)

section

variable {name : String} {first : Shape → Option Shape} {others : List (Shape → Option Shape)}

theorem Fills.needs_name (fills : Fills grade least first) (allows : Allows grade name) :
    Needs grade (fun shape => Upholds grade shape ∧ Binds grade least shape)
      (first (.node () (.ident name))) :=
  fills _ (upholds_iff.2 ⟨meets_ident_iff.2 allows, by simp [parts]⟩)
    (.of_isTight rfl (Nat.le_refl _))

/-- The conjunction of predicates is as a grade asks if these are. -/
theorem needs_conjunctionOver (allows : Allows grade name)
    (fills : ∀ fill ∈ first :: others, Fills grade 0 fill) :
    Needs grade (fun shape => Upholds grade shape ∧ isExpression shape = true)
    (conjunctionOver name (first :: others)) := by
  have operands {fill : Shape → Option Shape} (fills : Fills grade 0 fill) :
      Needs grade
        (fun shape => Upholds grade shape ∧ Binds grade (BinaryOp.and.precedence + 1) shape)
        ((fill (.node () (.ident name))).map operand) := by
    obtain ⟨each, present⟩ := fills.needs_name allows
    exact needs_map_iff.2
      ⟨fun inner isInner => (each inner isInner).1.operand (each inner isInner).2.1, present⟩
  obtain ⟨fillsFirst, fillsOthers⟩ := List.forall_mem_cons.1 fills
  have conjoined := @needs_conjoined grade ((first (.node () (.ident name))).map operand)
    (others.map fun fill => (fill (.node () (.ident name))).map operand)
    ((operands fillsFirst).mono fun _ operand => ⟨operand.1, operand.2.mono (Nat.le_succ _)⟩)
    (List.forall_mem_map.2 fun fill among => operands (fillsOthers fill among))
  exact conjoined.mono fun _ held => ⟨held.1, held.2.1⟩

/-- So is the composition of functions that come to something tight. -/
theorem needs_compositionOver (allows : Allows grade name)
    (fills : ∀ fill ∈ first :: others, Fills grade postfixLevel fill) :
    Needs grade (fun shape => Upholds grade shape ∧ isExpression shape = true)
    (compositionOver name (first :: others)) := by
  obtain ⟨fillsFirst, fillsOthers⟩ := List.forall_mem_cons.1 fills
  have needs := fillsFirst.needs_name allows
  rw [compositionOver]
  generalize first (.node () (.ident name)) = composed at needs ⊢
  clear fills
  induction others generalizing composed with
  | nil => exact needs.mono fun _ held => ⟨held.1, held.2.1⟩
  | cons fill others ih =>
    obtain ⟨fillsHere, fillsOthers⟩ := List.forall_mem_cons.1 fillsOthers
    refine ih fillsOthers _ ?_
    cases composed with
    | none => exact ⟨nofun, fun formed => absurd (needs.2 formed) (by simp)⟩
    | some composed => exact fillsHere composed (needs.1 _ rfl).1 (needs.1 _ rfl).2

end

/-- The call that takes the place of a run is as a grade asks if the body is. -/
theorem upholds_mergedCall {anchor : Shape} {name : String} {body : Option Shape}
    (upholds : Upholds grade anchor)
    (tight : IsTight anchor) (allows : Allows grade name)
    (needs : Needs grade (fun shape => Upholds grade shape ∧ isExpression shape = true) body) :
    Upholds grade (mergedCall anchor name body) := by
  have param : Upholds grade (.node () (.param none name)) :=
    upholds_iff.2 ⟨meets_param_iff.2 allows, by simp [parts]⟩
  have lambda : Upholds grade (.node () (.lambda [.node () (.param none name)] body false)) := by
    refine upholds_iff.2
      ⟨(meets_lambda_iff rfl).2 (needs.mono fun _ body => .inr body.2), fun child held => ?_⟩
    have cases : child = .node () (.param none name) ∨ child ∈ body := by simpa [parts] using held
    rcases cases with rfl | held
    · exact param
    · exact (needs.1 child held).1
  exact upholds_callOn upholds tight lambda rfl

end Shape

namespace Abstraction

variable {grade : Grade} {model : Model} {placeholder : String} {tree : Tree} {value : Outline}
  {function : Abstraction} {body : Option Outline} {filler : Shape}

/-- The name of the parameter of a function that is written as a lambda is one that a grade
allows. -/
theorem Denotes.allows (denotes : Denotes model placeholder value function body)
    (upholds : Upholds grade value.shape)
    (isWritten : function.referent.isSynthesized = false) : Allows grade function.param := by
  cases denotes with
  | named => cases isWritten
  | @written lambda param type body symbol _ form isParam _ =>
    obtain ⟨meets, below⟩ := (upholds_iff_of_kind form).1 upholds
    have bare := meets.isBareParam _ (.head _)
    rw [shape_of_kind isParam] at bare
    cases type with
    | none =>
      exact meets_param_iff.1 ((upholds_iff_of_kind isParam).1 (below param (by simp [parts]))).1
    | some type => cases bare

/-- What is in a body with a tight expression in the place of the parameter. -/
theorem supplants_filling {body : Outline} {symbol : SymbolId} (stands : tree.Stands body)
    (upholds : Upholds grade body.shape)
    (upholdsFiller : Upholds grade filler) (binds : Binds grade postfixLevel filler) :
    Supplants grade (filling (.symbol symbol) tree model filler body) body.shape := by
  refine supplants_shapePutting upholds fun part inside refers => ?_
  obtain ⟨name, isName, -⟩ := (stands.shows inside).exists_ident_of_isAt refers
  obtain ⟨upholdsEnclosed, bindsEnclosed⟩ := upholdsFiller.enclosed binds
  split
  · exact binds.supplants (isTight_of_kind isName rfl) upholdsFiller
  · exact bindsEnclosed.supplants (isTight_of_kind isName rfl) upholdsEnclosed

/-- The body of a function that an expression denotes is as a grade asks with a tight expression in
the place of the parameter, if the two expressions are, and it stays tight. -/
theorem Denotes.needs_filled (denotes : Denotes model placeholder value function body)
    (hasBody : function.HasBody body)
    (all : tree.StandsAll body.toList) (upholds : Upholds grade value.shape)
    (upholdsFiller : Upholds grade filler) (binds : Binds grade postfixLevel filler) :
    Needs grade (fun shape => Upholds grade shape ∧ isExpression shape = true ∧
      ((∀ term ∈ body, IsTight term.shape) → Binds grade postfixLevel shape))
      (function.filled tree model filler) := by
  rw [hasBody.filled all]
  cases denotes with
  | @named call path reference root members isPath copies isName isCall =>
    have stands := all.each call (.head _)
    refine needs_some ?_
    rw [filling_named isCall stands isName]
    have tight : IsTight path.shape := copies ▸ isTight_of_isPath isPath
    exact ⟨upholds_callOn (copies ▸ upholds) tight upholdsFiller binds.1, rfl, fun _ =>
      .of_isTight rfl (Nat.le_refl _)⟩
  | @written lambda param type body symbol isLambda form isParam _ =>
    obtain ⟨meets, below⟩ := (upholds_iff_of_kind form).1 upholds
    have bare : isBareParam param.shape = true := meets.isBareParam _ (.head _)
    obtain ⟨bodies, present⟩ := needs_map_iff.1 ((meets_lambda_iff bare).1 meets)
    refine needs_map_iff.2 ⟨fun term held => ?_, present⟩
    have inside : term ∈ parts (.lambda [param] body lambda.parenthesized) := by
      simp [parts, Option.mem_def.1 held]
    have isExpression : isExpression term.shape = true := by
      refine (bodies term held).resolve_left fun isBlock => ?_
      obtain ⟨_, _, _, form', -, noBlock, -⟩ := isLambda
      obtain ⟨-, rfl, -⟩ := Kind.lambda.inj (form.symm.trans form')
      rcases term with ⟨place, _ | _⟩ <;> first | exact noBlock _ held _ rfl | cases isBlock
    have supplants : Supplants grade (filling (.symbol symbol) tree model filler term) term.shape :=
      supplants_filling (all.each term (by simp [Option.mem_def.1 held]))
        (below term inside) upholdsFiller binds
    refine ⟨supplants.upholds, ?_, fun tight =>
      supplants.binds (.of_isTight (tight term held) (Nat.le_refl _))⟩
    exact (supplants.binds (.of_isExpression isExpression)).1

/-- The body of a function that can be composed is a call, if in parentheses. -/
theorem HasBody.isTight_of_isComposable {place : Nat} (hasBody : function.HasBody body)
    (all : tree.StandsAll body.toList)
    (composable : function.isComposable tree model place = true) :
    ∀ term ∈ body, IsTight term.shape := by
  rintro term isBody
  obtain rfl := Option.mem_def.1 isBody
  have isCall := (Bool.and_eq_true_iff.1 composable).1
  rw [hasBody.1, stripParens_eq all] at isCall
  have skeleton := (all.each term (.head _)).shown.here.depicts.skeleton
  rcases term with ⟨place, form⟩
  by_cases isParen : ∃ inner, form = .paren inner
  · obtain ⟨inner, rfl⟩ := isParen
    rfl
  · have isBare : bareOf (some (.node place form : Outline)) = some (.node place form) := by
      cases form <;> first | rfl | exact absurd ⟨_, rfl⟩ isParen
    rw [isBare, refOf_some, Abstraction.isCall] at isCall
    split at isCall
    · rename_i isInvoke
      rw [isInvoke] at skeleton
      cases form <;> first | rfl | cases skeleton
    · cases isCall

end Abstraction

/-- How a merging makes the body of the merged function, and what it needs of the functions for
that. -/
structure Merging.Keeps (merging : Merging) (grade : Grade) (least : Nat)
    (join : String → List (Shape → Option Shape) → Option Shape) : Prop where
  /-- The body is made so. -/
  joins : merging.Joins join
  /-- The functions that it accepts have bodies that hold together so tightly. -/
  tight : least = 0 ∨ least ≤ postfixLevel ∧ ∀ model tree function place,
    merging.accepts model tree function place = true → function.isComposable tree model place = true
  /-- The body is as the grade asks if the functions are. -/
  needs : ∀ name first others, Allows grade name →
    (∀ fill ∈ first :: others, Fills grade least fill) →
    Needs grade (fun shape => Upholds grade shape ∧ isExpression shape = true)
    (join name (first :: others))

theorem Merging.filters_keeps (grade : Grade) : filters.Keeps grade 0 Shape.conjunctionOver :=
  ⟨filters_joins, .inl rfl, fun _ _ _ => needs_conjunctionOver⟩

theorem Merging.projections_keeps
    (grade : Grade) : projections.Keeps grade postfixLevel Shape.compositionOver :=
  ⟨projections_joins, .inr ⟨Nat.le_refl _, fun _ _ _ _ => id⟩, fun _ _ _ => needs_compositionOver⟩

namespace CallRun

variable {merging : Merging} {grade : Grade} {least : Nat}
  {join : String → List (Shape → Option Shape) → Option Shape} {model : Model}
  {placeholder name : String} {run : CallRun} {tree : Tree} {whole outer anchor merged : Outline}
  {bodies : List (Option Outline)}

/-- The functions of a run come to something that is as a grade asks if the outermost call is. -/
theorem IsDrawn.fills (keeps : merging.Keeps grade least join)
    (drawn : run.IsDrawn model placeholder (merging.accepts model) outer anchor bodies)
    (stands : run.Stands (merging.accepts model) whole tree outer anchor bodies)
    (upholds : Upholds grade outer.shape) :
    ∀ function ∈ run.functions, Fills grade least (function.filled tree model) ∧
      (function.referent.isSynthesized = false → Allows grade function.param) := by
  have haveBodies := stands.haveBodies
  have all := (StandsAll.cons_iff.1 stands.standing).2.1
  have draw := drawn.draw
  generalize run.functions = functions at haveBodies draw
  clear stands drawn
  induction haveBodies with
  | nil => nofun
  | @cons function body functions bodies hasBody _ ih =>
    obtain ⟨⟨value, inside, denotes, other, place, accepted, standsOther⟩, draws⟩ :=
      List.forall₂_cons.1 draw
    rw [List.flatMap_cons, StandsAll.append_iff] at all
    have upholdsValue := upholds_of_mem upholds inside
    refine List.forall_mem_cons.2
      ⟨⟨fun filler upholdsFiller binds => ?_, denotes.allows upholdsValue⟩, ih all.2.1 draws⟩
    obtain ⟨each, present⟩ := denotes.needs_filled hasBody all.1 upholdsValue upholdsFiller binds
    refine ⟨fun shape held => ⟨(each shape held).1, ?_⟩, present⟩
    rcases keeps.tight with rfl | ⟨bounded, composable⟩
    · exact ⟨(each shape held).2.1, fun _ => Nat.zero_le _⟩
    · have isTight :=
        hasBody.isTight_of_isComposable standsOther (composable model other function place accepted)
      exact ((each shape held).2.2 isTight).mono bounded

/-- The call that is made of a run may stand where the run did. -/
theorem IsMerged.supplants (keeps : merging.Keeps grade least join) (stored : tree.Stored)
    (drawn : run.IsDrawn model placeholder (merging.accepts model) outer anchor bodies)
    (stands : run.Stands (merging.accepts model) whole tree outer anchor bodies)
    (upholds : Upholds grade outer.shape)
    (allows : Allows grade name) (isMerged : IsMerged anchor name
      (merging.combine model name run.first run.others tree) merged) :
    Supplants grade merged.shape outer.shape := by
  obtain ⟨callee, arguments, isCall⟩ := drawn.isCall
  obtain ⟨receiver, method, conditional, isMember⟩ := drawn.isMember
  have shape := stands.shape_merged keeps.joins stored isMerged
  have fills := drawn.fills keeps stands upholds
  have each : ∀ fill ∈ run.functions.map (·.filled tree model), Fills grade least fill :=
    List.forall_mem_map.2 fun function among => (fills function among).1
  have needs : Needs grade _ (join name (run.functions.map (·.filled tree model))) :=
    keeps.needs name _ _ allows each
  refine IsTight.supplants ?_ (isTight_of_kind isCall rfl) ?_ <;> rw [shape]
  · rfl
  · exact upholds_mergedCall (upholds_of_mem upholds drawn.anchored)
      (isTight_of_kind isMember rfl) allows needs

end CallRun

namespace Context

variable {context : Context} {grade : Grade} {whole : Outline} {ref : Ref}

/-- The name of the parameter of a merged function is one that a grade allows if those of the
functions are. -/
theorem mergedParameter_allows {scratch : Tree} {run : CallRun}
    (allowed : context.settings.Allowed grade)
    (allows : ∀ function ∈ run.functions, function.referent.isSynthesized = false →
      Allows grade function.param) :
    Attempt.Gives (context.mergedParameter scratch run) (Allows grade) := by
  rw [mergedParameter]
  split
  · rename_i name found
    obtain ⟨function, isFound, rfl⟩ :=
      Option.map_eq_some_iff.1 (Option.filter_eq_some_iff.1 found).1
    refine .pure (allows function (List.mem_of_find?_eq_some isFound) ?_)
    simpa using List.find?_some isFound
  · refine (Attempt.pickName_gives _ _ _).bind fun picked same => .pure ?_
    rw [same]
    exact NameScope.allows_pick (allowed _ (by simp [Settings.ladders]))

/-- Merging calls leaves a program as a grade asks it to be. -/
theorem merge_upholds {merging : Merging} {least : Nat}
    {join : String → List (Shape → Option Shape) → Option Shape}
    (keeps : merging.Keeps grade least join) (program : context.tree.IsProgram whole)
    (isUnit : whole.kind.sort = .unit) (upholds : Shape.Upholds grade whole.shape)
    (member : ref ∈ whole.refs) (allowed : context.settings.Allowed grade) :
    Attempt.Gives (context.merge merging ref) (Offers (Tree.Upholds grade)) := by
  obtain ⟨search, scratch, searched, frame, isFound⟩ := @CallRun.search_stands
    context.model context.settings.placeholder merging.method
    (merging.accepts context.model) _ _ _ program
    (program.statementOf_mem member)
  rw [merge, StateT.run, searched]
  refine (Attempt.noteAll_gives _).bind fun _ _ => ?_
  cases found : search.found with
  | none => exact Attempt.refuse_offers _
  | some run =>
    obtain ⟨outer, anchor, bodies, stands, drawn, -⟩ := isFound run found
    have upholdsOuter := upholds_of_mem upholds stands.within
    have grown := program.of_frame frame
    refine (mergedParameter_allows allowed fun function among =>
      (drawn.fills keeps stands upholdsOuter function among).2).bind fun name allows => ?_
    obtain ⟨after, merged, changed, places, isMerged⟩ :=
      stands.merge keeps.joins.combines name grown
    exact offer_offers ⟨after, changed, .of_swap program isUnit upholds stands.within places.program
      (CallRun.IsMerged.supplants keeps grown.stored drawn stands upholdsOuter allows isMerged)⟩

end Context

end Refactory
