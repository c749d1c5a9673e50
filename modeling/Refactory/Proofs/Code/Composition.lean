import Refactory.Proofs.Code.Factoring
import Refactory.Proofs.Code.Substitution
import Refactory.Proofs.Model.Scopes

/-!
# Terms of combined functions

The body of a conjunction or of a composition is a term made of the bodies of the functions that are
combined (`Abstraction.conjoin_makes`, `Abstraction.compose_makes`). Its shape is told by what the
bodies are with an expression in the place of the parameter (`Abstraction.filled`): a conjunction
has the bodies over the common parameter as operands, and in a composition each body is filled with
the one before.
-/
namespace Refactory

/-- The conjunction of operands that may be absent, grouped to the left. -/
def Shape.conjoined (first : Option Shape) (others : List (Option Shape)) : Option Shape :=
  others.foldl (fun joined operand => some (.node () (.binary .and joined operand))) first

namespace Tree

open Term

variable {tree other : Tree} {term part : Outline}

/-- Only names refer to something that a symbol stands for. -/
theorem isAt_symbol (id : SymbolId) (tree : Tree) (model : Model) (ref : Ref) :
    Referent.isAt (.symbol id) tree model ref =
    ((tree.kind ref).isIdent && model.symbolOf ref == some id) := by
  rw [Referent.isAt]
  cases tree.kind ref <;> rfl

/-- A node that two trees show alike refers to the same in both. -/
theorem Shows.isAt_eq (shows : tree.Shows part) (showsOther : other.Shows part)
    (referent : Referent) (model : Model) :
    referent.isAt other model part.ref = referent.isAt tree model part.ref := by
  cases referent with
  | synthesized reference => rfl
  | symbol id =>
    rw [isAt_symbol, isAt_symbol,
      Kind.isIdent_of_skeleton (showsOther.depicts.skeleton.trans shows.depicts.skeleton.symm)]

/-- A reference is a name. -/
theorem Shows.exists_ident_of_isAt {model : Model} {symbol : SymbolId} (shows : tree.Shows part)
    (refers : (Referent.symbol symbol).isAt tree model part.ref = true) :
    ∃ name, part.kind = .ident name ∧ model.symbolOf part.ref = some symbol := by
  rw [Referent.isAt] at refers
  split at refers
  · rename_i name isName
    exact ⟨name, (isName ▸ shows.depicts).ident, beq_iff_eq.1 refers⟩
  · cases refers

/-- A node is the value of an argument when an argument is above it. -/
theorem isArgumentValue_eq_isArgument (tree : Tree) {ref : Ref} (present : tree.parent ref ≠ none) :
    tree.isArgumentValue ref = (tree.kind (tree.parent ref)).isArgument := by
  obtain ⟨number, above⟩ := Option.ne_none_iff_exists'.1 present
  rw [isArgumentValue, above]
  dsimp only
  cases tree.kind (some number) <;> rfl

/-- The value of an argument in a term that stands is taken for one. -/
theorem Stands.isArgumentValue {hole value : Outline} {modifier : Modifier}
    (stands : tree.Stands term)
    (inside : hole ∈ term.subterms) (passes : hole.kind = .argument modifier (some value)) :
    tree.isArgumentValue value.ref = true := by
  have held : value ∈ hole.children := by simp [Term.children, passes, parts]
  have parent := stands.parent inside held
  have shows := stands.shows inside
  rw [isArgumentValue_eq_isArgument tree (parent ▸ shows.hasRef.ne_none), parent,
    Kind.isArgument_of_skeleton shows.depicts.skeleton, passes]
  rfl

/-- Whether a part of a term is the value of an argument is a matter of the term. -/
theorem Stands.isArgumentValue_eq (stands : tree.Stands term) (standsOther : other.Stands term)
    (within : part ∈ term.subterms) (below : part.ref ≠ term.ref) :
    other.isArgumentValue part.ref = tree.isArgumentValue part.ref := by
  rcases exists_holder within with rfl | ⟨holder, inside, held⟩
  · exact absurd rfl below
  · have present := (stands.shows inside).hasRef.ne_none
    have parent := stands.parent inside held
    have parentOther := standsOther.parent inside held
    rw [isArgumentValue_eq_isArgument tree (parent ▸ present),
      isArgumentValue_eq_isArgument other (parentOther ▸ present), parent, parentOther]
    exact Kind.isArgument_of_skeleton ((standsOther.shows inside).depicts.skeleton.trans
      (stands.shows inside).depicts.skeleton.symm)

end Tree

namespace Abstraction

open Term Refactory.Tree

/-- An optional term that is the body of a function. The parameter of the function is something that
can be referred to. -/
def HasBody (function : Abstraction) (body : Option Outline) : Prop :=
  function.body = refOf body ∧ function.referent ≠ .synthesized none

/-- What was made is an optional term, and the result says where. -/
def IsOptional (result : Ref) (outputs : List Outline) : Prop :=
  ∃ new : Option Outline, result = refOf new ∧ outputs = new.toList

/-- What was made is an optional term of a shape, and the result says where. -/
def IsShaped (shape : Option Shape) (result : Ref) (outputs : List Outline) : Prop :=
  ∃ new : Option Outline, result = refOf new ∧ outputs = new.toList ∧ new.map Term.shape = shape

theorem isAt_none {referent : Referent} (real : referent ≠ .synthesized none) (tree : Tree)
    (model : Model) :
    referent.isAt tree model none = false := by
  cases referent with
  | symbol id => rfl
  | synthesized reference =>
    have other : none ≠ reference := fun same => real (same ▸ rfl)
    simpa [Referent.isAt] using other

/-- The shape of a term with an expression in the place of the references to a referent. -/
def filling (referent : Referent) (tree : Tree) (model : Model) (value : Shape)
    (body : Outline) : Shape :=
  body.shapePutting (referent.isAt tree model) fun part =>
    if part.ref = body.ref ∨ tree.isArgumentValue part.ref = true then value else value.enclosed

/-- The shape of the body of a function with an expression in the place of the parameter. -/
def filled (function : Abstraction) (tree : Tree) (model : Model) (value : Shape) : Option Shape :=
  (tree.outline? function.body).map (filling function.referent tree model value)

section

variable {model : Model} {tree : Tree}

/-- A name comes without parentheses wherever it stands. -/
theorem filling_name (referent : Referent) (name : String) (body : Outline) :
    filling referent tree model (.node () (.ident name)) body =
    body.shapeNaming (referent.isAt tree model) name := by
  simp only [filling, Shape.enclosed, Term.kind, Kind.isPrimary, if_true, ite_self]
  rfl

/-- What a body is with an expression in the place of the parameter is a matter of the term. -/
theorem filling_eq {other : Tree} {body : Outline} (stands : tree.Stands body)
    (standsOther : other.Stands body) (referent : Referent) (value : Shape) :
    filling referent other model value body = filling referent tree model value body := by
  refine shapePutting_congr
    (fun part inside => (stands.shows inside).isAt_eq (standsOther.shows inside) referent model)
    fun part inside _ => ?_
  by_cases here : part.ref = body.ref
  · simp [here]
  · rw [stands.isArgumentValue_eq standsOther inside here]

/-- The body of a function that stands is filled as the term that it is. -/
theorem HasBody.filled {function : Abstraction} {body : Option Outline}
    (hasBody : function.HasBody body)
    (all : tree.StandsAll body.toList) (value : Shape) :
    function.filled tree model value = body.map (filling function.referent tree model value) := by
  rw [Abstraction.filled, hasBody.1, outline?_refOf fun term held =>
    all.each term (by simpa using held)]

/-- So it is filled alike in every tree where it stands. -/
theorem HasBody.filled_eq {function : Abstraction} {body : Option Outline} {other : Tree}
    (hasBody : function.HasBody body)
    (all : tree.StandsAll body.toList) (allOther : other.StandsAll body.toList) :
    function.filled other model = function.filled tree model := by
  funext value
  rw [hasBody.filled all, hasBody.filled allOther]
  cases body with
  | none => rfl
  | some body =>
    have here := all.each body (.head _)
    exact congrArg some (filling_eq here (allOther.each body (.head _)) _ value)

/-- Functions whose bodies stand are filled alike in every tree where these stand. -/
theorem filled_eq_of_stands {functions : List Abstraction} {bodies : List (Option Outline)}
    {other : Tree} (haveBodies : List.Forall₂ HasBody functions bodies)
    (all : tree.StandsAll (bodies.flatMap Option.toList))
    (allOther : other.StandsAll (bodies.flatMap Option.toList)) :
    functions.map (·.filled other model) = functions.map (·.filled tree model) := by
  induction haveBodies with
  | nil => rfl
  | cons hasBody _ ih =>
    rw [List.flatMap_cons, StandsAll.append_iff] at all allOther
    rw [List.map_cons, List.map_cons, hasBody.filled_eq all.1 allOther.1, ih all.2.1 allOther.2.1]

/-- An operand of a conjunction is made of the body of the predicate. -/
theorem operand_makes {predicate : Abstraction} {body : Option Outline} (name : String)
    (hasBody : predicate.HasBody body) (stored : tree.Stored) (all : tree.StandsAll body.toList) :
    Makes (operand model name predicate) tree body.toList
      (IsShaped ((predicate.filled tree model (.node () (.ident name))).map Shape.operand)) := by
  have isFilled : predicate.filled tree model (.node () (.ident name)) = _ := hasBody.filled all _
  obtain ⟨isBody, real⟩ := hasBody
  have renamed := renameReferences_makes model name stored all fun _ => isAt_none real tree model
  rw [operand, isBody, isFilled]
  have all' : tree.StandsAll (body.toList ++ []) := by simpa using all
  have makes : Makes (renameReferences model predicate.referent name (refOf body) >>= fun body => do
      if (← get).isAtomic body then return body else Build.paren body) tree (body.toList ++ [])
      (IsShaped ((body.map (filling predicate.referent tree model (.node () (.ident name)))).map
        Shape.operand)) := by
    refine renamed.bind stored all' ?_
    rintro _ _ middle ⟨value, moved, rfl, rfl, names⟩ - stored all
    have shape :
        (body.map (Term.replacing (predicate.referent.isAt tree model) value moved)).map Term.shape
        = body.map (filling predicate.referent tree model (.node () (.ident name))) := by
      rw [Option.map_map]
      refine Option.map_congr fun term held => ?_
      rw [Function.comp_apply, filling_name]
      exact shape_replacing_of_names (names term held)
    rw [← shape]
    generalize body.map (Term.replacing (predicate.referent.isAt tree model) value moved)
      = new at stored all ⊢
    rw [List.append_nil] at all ⊢
    change Makes (if middle.isAtomic (refOf new) then pure (refOf new)
      else Build.paren (refOf new)) middle new.toList _
    cases new with
    | none => exact .pure all ⟨none, rfl, rfl, rfl⟩
    | some new =>
      rw [refOf_some, (all.each new (.head _)).shown.here.isAtomic]
      split
      · rename_i isAtomic
        exact .pure all ⟨some new, rfl, rfl, by simp [Shape.operand, isAtomic]⟩
      · rename_i wanted
        refine (@Build.paren_makes middle (some new) stored all).mono fun _ _ isNode => ?_
        obtain ⟨place, rfl, rfl⟩ := isNode
        exact ⟨some _, rfl, rfl, by simp [Shape.operand, wanted]⟩
  simpa using makes

/-- A conjunction is made of its first operands and of the bodies of the other predicates. -/
theorem conjoinOnto_makes {conjunction : Option Outline} {predicates : List Abstraction}
    {bodies : List (Option Outline)}
    (name : String) (haveBodies : List.Forall₂ HasBody predicates bodies) (stored : tree.Stored)
    (all : tree.StandsAll (conjunction.toList ++ bodies.flatMap Option.toList)) :
    Makes (conjoinOnto model name (refOf conjunction) predicates) tree
      (conjunction.toList ++ bodies.flatMap Option.toList)
      (IsShaped (Shape.conjoined (conjunction.map Term.shape) (predicates.map fun predicate =>
        (predicate.filled tree model (.node () (.ident name))).map Shape.operand))) := by
  induction haveBodies generalizing conjunction tree with
  | nil => exact .pure all ⟨conjunction, rfl, by simp, rfl⟩
  | @cons predicate body predicates bodies hasBody haveBodies ih =>
    rw [List.flatMap_cons] at all ⊢
    have front := all.perm (List.perm_append_comm_assoc _ _ _)
    refine Makes.perm ?_ (List.perm_append_comm_assoc _ _ _)
    refine (operand_makes name hasBody stored (StandsAll.append_iff.1 front).1).bind stored front ?_
    rintro _ _ middle ⟨operand, rfl, rfl, isOperand⟩ - stored all
    have pair : middle.StandsAll
        ((conjunction.toList ++ operand.toList) ++ bodies.flatMap Option.toList) := by
      rw [List.append_assoc]
      exact all.perm (List.perm_append_comm_assoc _ _ _)
    refine Makes.perm (?_ : Makes _ middle
      ((conjunction.toList ++ operand.toList) ++ bodies.flatMap Option.toList) _) ?_
    · refine (Build.binary_makes .and stored (StandsAll.append_iff.1 pair).1).bind stored pair ?_
      rintro _ _ after ⟨place, rfl, rfl⟩ - stored all
      have joined := @ih after (some (.node place (.binary .and conjunction operand))) stored all
      simp only [Option.map_some, shape_node, mapForm, mapSome_unit] at joined
      have others : predicates.map (·.filled after model) = predicates.map (·.filled tree model) :=
        filled_eq_of_stands haveBodies
          (StandsAll.append_iff.1 (StandsAll.append_iff.1 front).2.1).2.1
            (StandsAll.append_iff.1 all).2.1
      have shapes :=
        congrArg (List.map fun fill => (fill (.node () (.ident name))).map Shape.operand) others
      rw [List.map_map, List.map_map] at shapes
      simp only [Function.comp_def] at shapes
      rw [List.map_cons, ← isOperand, ← shapes]
      exact joined
    · rw [List.append_assoc]
      exact List.perm_append_comm_assoc _ _ _

/-- The conjunction of predicates is made of their bodies. -/
theorem conjoin_makes {first : Abstraction} {others : List Abstraction}
    {bodies : List (Option Outline)}
    (name : String) (haveBodies : List.Forall₂ HasBody (first :: others) bodies)
    (stored : tree.Stored)
    (all : tree.StandsAll (bodies.flatMap Option.toList)) :
    Makes (conjoin model name first others) tree (bodies.flatMap Option.toList) (IsShaped
        (Shape.conjoined ((first.filled tree model (.node () (.ident name))).map Shape.operand)
        (others.map fun predicate =>
          (predicate.filled tree model (.node () (.ident name))).map Shape.operand))) := by
  cases haveBodies with
  | @cons _ body _ bodies hasBody haveBodies =>
    rw [List.flatMap_cons] at all ⊢
    refine (operand_makes name hasBody stored (StandsAll.append_iff.1 all).1).bind stored all ?_
    rintro _ _ middle ⟨operand, rfl, rfl, isOperand⟩ - stored allMiddle
    have same : others.map (·.filled middle model) = others.map (·.filled tree model) :=
      filled_eq_of_stands haveBodies (StandsAll.append_iff.1 all).2.1
        (StandsAll.append_iff.1 allMiddle).2.1
    have shapes :=
      congrArg (List.map fun fill => (fill (.node () (.ident name))).map Shape.operand) same
    rw [List.map_map, List.map_map] at shapes
    simp only [Function.comp_def] at shapes
    rw [← isOperand, ← shapes]
    exact conjoinOnto_makes name haveBodies stored allMiddle

/-- A composition is made of the body so far and of the bodies of the other functions. -/
theorem composeOnto_makes {composed : Outline} {functions : List Abstraction}
    {bodies : List Outline}
    (haveBodies : List.Forall₂ (fun function body => function.HasBody (some body)) functions bodies)
    (stored : tree.Stored) (all : tree.StandsAll (composed :: bodies)) :
    Makes (composeOnto model composed.ref functions) tree (composed :: bodies) (IsShaped
        ((functions.map (·.filled tree model)).foldl Option.bind (some composed.shape))) := by
  induction haveBodies generalizing composed tree with
  | nil => exact .pure all ⟨some composed, rfl, rfl, rfl⟩
  | @cons function body functions bodies hasBody haveBodies ih =>
    have front : tree.StandsAll ([body, composed] ++ bodies) := all.perm (.swap _ _ _)
    refine Makes.perm (?_ : Makes _ tree ([body, composed] ++ bodies) _) (.swap _ _ _)
    have first := @substituteReferences_makes tree model function.referent composed body stored
      (StandsAll.append_iff.1 front).1
    rw [← show function.body = body.ref from hasBody.1] at first
    refine first.bind stored front ?_
    rintro _ _ middle ⟨value, moved, rfl, rfl, arePut⟩ - stored allMiddle
    have shape : some (body.replacing (function.referent.isAt tree model) value moved).shape
        = function.filled tree model composed.shape := by
      rw [hasBody.filled (StandsAll.singleton_iff.2 (all.each body (by simp)))]
      refine congrArg some (shape_replacing fun part inside => ?_)
      rw [← show function.body = body.ref from hasBody.1]
      exact arePut body rfl part inside
    have same : functions.map (·.filled middle model) = functions.map (·.filled tree model) :=
      @filled_eq_of_stands model tree _ (bodies.map some)
      _ (List.forall₂_map_right_iff.2 haveBodies)
        (by simpa [List.flatMap_map] using (StandsAll.append_iff.1 front).2.1)
        (by simpa [List.flatMap_map] using (StandsAll.cons_iff.1 allMiddle).2.1)
    rw [List.map_cons, List.foldl_cons, Option.bind_some, ← shape, ← same]
    exact ih stored allMiddle

/-- The composition of functions is made of their bodies. -/
theorem compose_makes {first : Abstraction} {others : List Abstraction} {bodies : List Outline}
    (name : String) (haveBodies : List.Forall₂ (fun function body => function.HasBody (some body))
      (first :: others) bodies)
    (stored : tree.Stored) (all : tree.StandsAll bodies) :
    Makes (compose model name first others) tree bodies
      (IsShaped ((others.map (·.filled tree model)).foldl Option.bind
        (first.filled tree model (.node () (.ident name))))) := by
  cases haveBodies with
  | @cons _ body _ bodies hasBody haveBodies =>
    have isFilled : first.filled tree model (.node () (.ident name)) = _ :=
      hasBody.filled (StandsAll.singleton_iff.2 (all.each body (.head _))) _
    obtain ⟨isBody, real⟩ := hasBody
    rw [compose, isBody]
    have front : tree.StandsAll ((some body).toList ++ bodies) := all
    refine (renameReferences_makes model name stored (StandsAll.append_iff.1 front).1
      (by simp)).bind stored front ?_
    rintro _ _ middle ⟨value, moved, rfl, rfl, names⟩ - stored allMiddle
    have shape : first.filled tree model (.node () (.ident name))
        = some (body.replacing (first.referent.isAt tree model) value moved).shape := by
      rw [isFilled, Option.map_some, filling_name, shape_replacing_of_names (names body rfl)]
    have same : others.map (·.filled middle model) = others.map (·.filled tree model) :=
      @filled_eq_of_stands model tree _ (bodies.map some)
      _ (List.forall₂_map_right_iff.2 haveBodies)
        (by simpa [List.flatMap_map] using (StandsAll.append_iff.1 front).2.1)
        (by simpa [List.flatMap_map] using (StandsAll.cons_iff.1 allMiddle).2.1)
    rw [shape, ← same]
    exact composeOnto_makes haveBodies stored allMiddle

end

end Abstraction

end Refactory
