import Refactory.Proofs.Model.Mirror
import Refactory.Proofs.Refactoring.Projection

/-!
# Looking at mirrored code

Whatever a refactoring asks of the code in a tree has the same answer in an image of the tree, with
the nodes of the answer under their other numbers.
-/
namespace Refactory

variable {referent : Referent}

/-- A called member with its nodes under other numbers. -/
def CalledMember.renumber (move : Nat → Nat) (called : CalledMember) : CalledMember :=
  ⟨called.access.map move, called.receiver.map move, called.name, called.conditional⟩

/-- A simple lambda with its nodes under other numbers. -/
def SimpleLambda.renumber (move : Nat → Nat) (lambda : SimpleLambda) : SimpleLambda :=
  ⟨lambda.param.map move, lambda.name, lambda.body.map move, lambda.parenthesized⟩

/-- A referent with its node, if it has one, under another number. -/
def Referent.renumber (move : Nat → Nat) : Referent → Referent
  | symbol id => symbol id
  | synthesized reference => synthesized (reference.map move)

/-- A function with its nodes under other numbers. -/
def Abstraction.renumber (move : Nat → Nat) (function : Abstraction) : Abstraction :=
  ⟨function.param, function.referent.renumber move, function.body.map move⟩

/-- A layer with its nodes under other numbers. -/
def Layer.renumber (move : Nat → Nat) (layer : Layer) : Layer :=
    ⟨layer.call.map move, layer.hole.map move⟩

/-- A passed argument with its nodes under other numbers. -/
def Tree.Passed.renumber (move : Nat → Nat) (passed : Tree.Passed) : Tree.Passed :=
  ⟨passed.argument.map move, passed.modifier, passed.value.map move⟩

namespace Tree

variable {move : Nat → Nat} {tree image : Tree}

/-- What a call calls a member on is present two steps below the call, or absent. -/
theorem Ends.receiver {bound : Nat} {call : Ref} {called : CalledMember}
    (ends : tree.Ends (bound + 1) call)
    (found : tree.calledMember? call = some called) (present : called.receiver ≠ none) :
    tree.Ends bound called.receiver := by
  rw [calledMember?] at found
  split at found
  · rename_i callee arguments kind
    split at found
    · rename_i receiver name conditional kindCallee
      obtain rfl := Option.some.inj found
      have isPresent : callee ≠ none := by
        rintro rfl
        cases kindCallee
      have ends := ends.one (by rw [kind]; exact .head _) isPresent
      cases bound with
      | zero => exact ends.elim
      | succ bound =>
        exact (ends.one (by rw [kindCallee]; exact .head _) present).mono (Nat.le_succ _)
    · cases found
  · cases found

/-- An argument that is passed is an entry of the list of arguments. -/
theorem mem_passed {range : Range} {passed : Passed} (member : passed ∈ tree.passed range) :
    passed.argument ∈ tree.items range ∧ .one passed.value ∈ (tree.kind passed.argument).slots := by
  obtain ⟨ref, inside, found⟩ := List.mem_filterMap.1 member
  split at found
  · rename_i modifier value kind
    obtain rfl := Option.some.inj found
    exact ⟨inside, by rw [kind]; exact .head _⟩
  · cases found

/-- The access to an element is above its index. -/
theorem eq_parent_of_elementAccess? {model : Model} {collection ref access : Ref}
    (found : tree.elementAccess? model collection ref = some access) :
    access = tree.parent ref := by
  rw [elementAccess?] at found
  split at found
  · cases found
  · split at found
    · split at found
      · exact (Option.some.inj found).symm
      · cases found
    · cases found

/-- What is inside parentheses has less below it. -/
theorem Grounded.stripParens {ref : Ref}
    (grounded : tree.Grounded ref) : tree.Grounded (tree.stripParens ref) := by
  have within (bound : Nat) {ref : Ref} (grounded : tree.Grounded ref) :
      tree.Grounded (tree.stripParensWithin bound ref) := by
    induction bound generalizing ref with
    | zero => exact grounded
    | succ bound ih =>
      rw [stripParensWithin]
      split
      · rename_i kind
        exact ih (grounded.one (by rw [kind]; exact .head _))
      · exact grounded
  exact within _ grounded

/-- What a path starts with has less below it. -/
theorem Grounded.pathRoot {ref : Ref}
    (grounded : tree.Grounded ref) : tree.Grounded (tree.pathRoot ref) := by
  have within (bound : Nat) {ref : Ref} (grounded : tree.Grounded ref) :
      tree.Grounded (tree.pathRootWithin bound ref) := by
    induction bound generalizing ref with
    | zero => exact grounded
    | succ bound ih =>
      rw [pathRootWithin]
      split
      · rename_i kind
        exact ih (grounded.one (by rw [kind]; exact .head _))
      · exact grounded
  exact within _ grounded

namespace Mirrors

variable (mirrors : tree.Mirrors move image)

include mirrors

section

variable (ref : Ref)

theorem isBlock : image.isBlock (ref.map move) = tree.isBlock ref := by
  obtain ⟨g, same, -⟩ := mirrors.exists_kind ref
  rw [Tree.isBlock, same, Tree.isBlock]
  cases tree.kind ref <;> rfl

theorem singleArgument? :
    image.singleArgument? (ref.map move) = (tree.singleArgument? ref).map (Option.map move) := by
  obtain ⟨g, same, lists⟩ := mirrors.exists_kind ref
  rw [Tree.singleArgument?, same, Tree.singleArgument?]
  cases kind : tree.kind ref with
  | invoke callee arguments =>
    have items := (lists 1 arguments (by rw [kind]; rfl)).items
    simp only [Kind.bimap, items]
    rcases tree.items arguments with _ | ⟨argument, _ | ⟨second, others⟩⟩
    · rfl
    · obtain ⟨g, same, -⟩ := mirrors.exists_kind argument
      simp only [List.map, same]
      cases tree.kind argument with
      | argument modifier value => cases modifier <;> rfl
      | _ => rfl
    · rfl
  | _ => rfl

theorem calledMember? :
    image.calledMember? (ref.map move) =
    (tree.calledMember? ref).map (CalledMember.renumber move) := by
  obtain ⟨g, same, -⟩ := mirrors.exists_kind ref
  rw [Tree.calledMember?, same, Tree.calledMember?]
  cases tree.kind ref with
  | invoke callee arguments =>
    obtain ⟨g, same, -⟩ := mirrors.exists_kind callee
    simp only [Kind.bimap, same]
    cases tree.kind callee <;> rfl
  | _ => rfl

theorem simpleLambda? :
    image.simpleLambda? (ref.map move) =
    (tree.simpleLambda? ref).map (SimpleLambda.renumber move) := by
  obtain ⟨g, same, lists⟩ := mirrors.exists_kind ref
  rw [Tree.simpleLambda?, same, Tree.simpleLambda?]
  cases kind : tree.kind ref with
  | lambda params body parenthesized =>
    have items := (lists 0 params (by rw [kind]; rfl)).items
    simp only [Kind.bimap, items]
    rcases tree.items params with _ | ⟨param, _ | ⟨second, others⟩⟩
    · rfl
    · obtain ⟨g, same, -⟩ := mirrors.exists_kind param
      simp only [List.map, same]
      cases tree.kind param with
      | param type name =>
        simp only [Kind.bimap, mirrors.isBlock]
        split <;> rfl
      | _ => rfl
    · rfl
  | _ => rfl

theorem isCallOf
    (method : String) : image.isCallOf method (ref.map move) = tree.isCallOf method ref := by
  rw [Tree.isCallOf, Tree.isCallOf, mirrors.calledMember?, mirrors.singleArgument?, Option.any_map,
    Option.isSome_map]
  rfl

theorem isPrimary : image.isPrimary (ref.map move) = tree.isPrimary ref := by
  obtain ⟨g, same, -⟩ := mirrors.exists_kind ref
  rw [Tree.isPrimary, same, Tree.isPrimary]
  cases tree.kind ref <;> rfl

theorem isAtomic : image.isAtomic (ref.map move) = tree.isAtomic ref := by
  have primary := mirrors.isPrimary ref
  obtain ⟨g, same, -⟩ := mirrors.exists_kind ref
  rw [Tree.isAtomic, same, Tree.isAtomic]
  cases tree.kind ref <;> first | rfl | exact primary

theorem isStatement : (image.kind (ref.map move)).isStatement = (tree.kind ref).isStatement := by
  obtain ⟨g, same, -⟩ := mirrors.exists_kind ref
  rw [same, Kind.isStatement_bimap]

theorem isStatementList : image.isStatementList (ref.map move) = tree.isStatementList ref := by
  obtain ⟨g, same, -⟩ := mirrors.exists_kind ref
  rw [Tree.isStatementList, same, Tree.isStatementList]
  cases tree.kind ref <;> rfl

theorem isEffect : image.isEffect (ref.map move) = tree.isEffect ref := by
  obtain ⟨g, same, -⟩ := mirrors.exists_kind ref
  rw [Tree.isEffect, same, Tree.isEffect]
  cases tree.kind ref <;> rfl

theorem lastName? : image.lastName? (ref.map move) = tree.lastName? ref := by
  obtain ⟨g, same, -⟩ := mirrors.exists_kind ref
  rw [Tree.lastName?, same, Tree.lastName?]
  cases tree.kind ref <;> rfl

theorem isWritten : image.isWritten (ref.map move) = tree.isWritten ref := by
  rw [Tree.isWritten, mirrors.parent, Tree.isWritten]
  cases tree.parent ref with
  | none => rfl
  | some parent =>
    obtain ⟨g, same, -⟩ := mirrors.exists_kind (some parent)
    simp only [Option.map_some] at same ⊢
    rw [same]
    cases tree.kind (some parent) with
    | assign op target value => exact mirrors.map_beq target ref
    | _ => rfl

theorem isCall : Abstraction.isCall image (ref.map move) = Abstraction.isCall tree ref := by
  obtain ⟨g, same, -⟩ := mirrors.exists_kind ref
  rw [Abstraction.isCall, same, Abstraction.isCall]
  cases tree.kind ref <;> rfl

end

section

variable {bound bound' : Nat} {ref : Ref}

theorem callsOf (method : String) (grounded : tree.Grounded ref) :
    image.callsOf method (ref.map move) = (tree.callsOf method ref).map (Option.map move) := by
  rw [Tree.callsOf, Tree.callsOf, mirrors.descendants grounded, List.filter_map]
  congr 2
  funext call
  exact mirrors.isCallOf call method

theorem namesIn
    (grounded : tree.Grounded ref) : image.namesIn (ref.map move) = tree.namesIn ref := by
  rw [Tree.namesIn, Tree.namesIn, mirrors.descendants grounded, List.filterMap_map]
  congr 1
  funext ref
  obtain ⟨g, same, -⟩ := mirrors.exists_kind ref
  rw [Function.comp_apply, same]
  cases tree.kind ref <;> rfl

theorem hasEffects (grounded : tree.Grounded ref) :
    image.hasEffects (ref.map move) = tree.hasEffects ref := by
  rw [Tree.hasEffects, Tree.hasEffects, mirrors.descendants grounded, List.any_map]
  congr 1
  funext ref
  exact mirrors.isEffect ref

theorem statementOf (tops : tree.Tops tree.depthBound ref) :
    image.statementOf (ref.map move) = (tree.statementOf ref).map move := by
  rw [Tree.statementOf, Tree.statementOf, mirrors.lineage tops, List.find?_map]
  have isStatement : ((fun ref => (image.kind ref).isStatement) ∘ Option.map move)
      = fun ref => (tree.kind ref).isStatement := funext mirrors.isStatement
  rw [isStatement]
  cases (tree.lineage ref).find? _ <;> rfl

theorem stripParens (grounded : tree.Grounded ref) :
    image.stripParens (ref.map move) = (tree.stripParens ref).map move := by
  refine walks_agree (f := tree.stripParensWithin) (g := image.stripParensWithin) (h :=
    Option.map move)
      (fun bound bound' => ?_) (fun bound bound' ref ends ends' next => ?_) grounded
      (mirrors.ends_of_grounded grounded)
  · cases bound <;> cases bound' <;> rfl
  · obtain ⟨g, same, -⟩ := mirrors.exists_kind ref
    rw [stripParensWithin, same, stripParensWithin]
    cases kind : tree.kind ref with
    | paren inner =>
      have inside : Slot.one inner ∈ (tree.kind ref).slots := by rw [kind]; exact .head _
      exact next inner fun present => ⟨ends.one inside present, ends'.one inside present⟩
    | _ => rfl

theorem isStablePath (grounded : tree.Grounded ref) :
    image.isStablePath (ref.map move) = tree.isStablePath ref := by
  refine walks_agree (f := tree.isStablePathWithin) (g := image.isStablePathWithin) (h := id)
    (fun bound bound' => ?_) (fun bound bound' ref ends ends' next => ?_) grounded
    (mirrors.ends_of_grounded grounded)
  · cases bound <;> cases bound' <;> rfl
  · obtain ⟨g, same, -⟩ := mirrors.exists_kind ref
    rw [isStablePathWithin, same, isStablePathWithin]
    cases kind : tree.kind ref with
    | member receiver name conditional =>
      have inside : Slot.one receiver ∈ (tree.kind ref).slots := by rw [kind]; exact .head _
      cases conditional with
      | false => exact next receiver fun present =>
        ⟨ends.one inside present, ends'.one inside present⟩
      | true => rfl
    | _ => rfl

theorem pathRoot (grounded : tree.Grounded ref) :
    image.pathRoot (ref.map move) = (tree.pathRoot ref).map move := by
  refine walks_agree (f := tree.pathRootWithin) (g := image.pathRootWithin) (h := Option.map move)
    (fun bound bound' => ?_) (fun bound bound' ref ends ends' next => ?_) grounded
    (mirrors.ends_of_grounded grounded)
  · cases bound <;> cases bound' <;> rfl
  · obtain ⟨g, same, -⟩ := mirrors.exists_kind ref
    rw [pathRootWithin, same, pathRootWithin]
    cases kind : tree.kind ref with
    | member receiver name conditional =>
      have inside : Slot.one receiver ∈ (tree.kind ref).slots := by rw [kind]; exact .head _
      exact next receiver fun present => ⟨ends.one inside present, ends'.one inside present⟩
    | _ => rfl

theorem spineRoot (grounded : tree.Grounded ref) :
    image.spineRoot (ref.map move) = (tree.spineRoot ref).map move := by
  refine walks_agree (f := tree.spineRootWithin) (g := image.spineRootWithin) (h := Option.map move)
    (fun bound bound' => ?_) (fun bound bound' ref ends ends' next => ?_) grounded
    (mirrors.ends_of_grounded grounded)
  · cases bound <;> cases bound' <;> rfl
  · obtain ⟨g, same, -⟩ := mirrors.exists_kind ref
    have below {child : Ref} (inside : Slot.one child ∈ (tree.kind ref).slots) :
        image.spineRootWithin bound' (child.map move)
          = (tree.spineRootWithin bound child).map move :=
      next child fun present => ⟨ends.one inside present, ends'.one inside present⟩
    rw [spineRootWithin, same, spineRootWithin]
    cases kind : tree.kind ref with
    | invoke callee _ => exact below (by rw [kind]; exact .head _)
    | member receiver _ _ => exact below (by rw [kind]; exact .head _)
    | index receiver _ => exact below (by rw [kind]; exact .head _)
    | _ => rfl

theorem callSpine (grounded : tree.Grounded ref) :
    image.callSpine (ref.map move) = (tree.callSpine ref).map (Option.map move) := by
  refine walks_agree (f := tree.callSpineWithin) (g := image.callSpineWithin) (h :=
    List.map (Option.map move))
      (fun bound bound' => ?_) (fun bound bound' ref ends ends' next => ?_) grounded
      (mirrors.ends_of_grounded grounded)
  · cases bound <;> cases bound' <;> rfl
  · rw [callSpineWithin, mirrors.calledMember?, callSpineWithin]
    cases found : tree.calledMember? ref with
    | none => rfl
    | some called =>
      exact congrArg _ (next called.receiver fun present =>
        ⟨ends.receiver found present, ends'.receiver found present⟩)

/-- The calls of a method down from a call, with their member accesses. -/
theorem callsDownWithin (method : String) (ends : ref ≠ none → tree.Ends bound ref)
    (ends' : ref ≠ none → tree.Ends bound' ref) : image.callsDownWithin method bound' (ref.map move)
      = (tree.callsDownWithin method bound ref).map
      (Prod.map (Option.map move) (CalledMember.renumber move)) := by
  refine walks_agree (f := tree.callsDownWithin method) (g := image.callsDownWithin method)
    (h := List.map (Prod.map (Option.map move) (CalledMember.renumber move)))
    (fun bound bound' => ?_) (fun bound bound' ref ends ends' next => ?_) ends ends'
  · cases bound <;> cases bound' <;> rfl
  · rw [Tree.callsDownWithin, mirrors.isCallOf, mirrors.calledMember?, Tree.callsDownWithin]
    split
    · cases found : tree.calledMember? ref with
      | none => rfl
      | some called =>
        exact congrArg _ (next called.receiver fun present =>
          ⟨ends.receiver found present, ends'.receiver found present⟩)
    · rfl

theorem conjunctsWithin (ends : ref ≠ none → tree.Ends bound ref)
    (ends' : ref ≠ none → tree.Ends bound' ref) :
    image.conjunctsWithin bound' (ref.map move) =
    (tree.conjunctsWithin bound ref).map (Option.map move) := by
  refine walks_agree (f := tree.conjunctsWithin) (g := image.conjunctsWithin) (h :=
    List.map (Option.map move))
      (fun bound bound' => ?_) (fun bound bound' ref ends ends' next => ?_) ends ends'
  · cases bound <;> cases bound' <;> rfl
  · obtain ⟨g, same, -⟩ := mirrors.exists_kind ref
    have below (child : Ref) (inside : Slot.one child ∈ (tree.kind ref).slots) :
        image.conjunctsWithin bound' (child.map move)
          = (tree.conjunctsWithin bound child).map (Option.map move) :=
      next child fun present => ⟨ends.one inside present, ends'.one inside present⟩
    rw [Tree.conjunctsWithin, same, Tree.conjunctsWithin]
    cases kind : tree.kind ref with
    | binary op left right =>
      have left := below left (by rw [kind]; exact .head _)
      have right := below right (by rw [kind]; exact .tail _ (.head _))
      cases op with
      | and =>
        simp only [Kind.bimap, left, right, List.map_append]
      | _ => rfl
    | _ => rfl

end

/-! ### Runs of calls -/

section

variable {bound bound' : Nat} {call : Ref} (method : String)

theorem isOnCallOf
    (call : Ref) : image.isOnCallOf method (call.map move) = tree.isOnCallOf method call := by
  rw [Tree.isOnCallOf, mirrors.calledMember?, Option.any_map, Tree.isOnCallOf]
  congr 1
  funext called
  exact mirrors.isCallOf called.receiver method

theorem callAround? (call : Ref) :
    image.callAround? method (call.map move) =
    (tree.callAround? method call).map (Option.map move) := by
  rw [Tree.callAround?, mirrors.parent, Tree.callAround?]
  cases tree.parent call with
  | none => rfl
  | some access =>
    obtain ⟨g, same, -⟩ := mirrors.exists_kind (some access)
    simp only [Option.map_some] at same ⊢
    rw [same]
    cases tree.kind (some access) with
    | member receiver name conditional =>
      have above : image.parent (some (move access)) = (tree.parent (some access)).map move :=
        mirrors.parent (some access)
      simp only [Kind.bimap, above, mirrors.isCallOf, mirrors.map_inj]
      split <;> rfl
    | _ => rfl

omit mirrors in
/-- The call around a call is two steps above it. -/
theorem tops_callAround {around : Ref} (tops : tree.Tops (bound + 1) call)
    (found : tree.callAround? method call = some around) : tree.Tops bound around := by
  rw [Tree.callAround?] at found
  split at found
  · cases found
  · rename_i access present
    split at found
    · dsimp only at found
      split at found
      · rename_i isAround
        obtain rfl := Option.some.inj found
        simp only [Bool.and_eq_true] at isAround
        have isCall := isAround.2
        have above := tops present
        cases bound with
        | zero => exact above.elim
        | succ bound =>
          refine (above fun absent => ?_).mono (Nat.le_succ _)
          rw [absent] at isCall
          cases isCall
      · cases found
    · cases found

theorem outermostCallWithin (tops : tree.Tops bound call) (tops' : tree.Tops bound' call) :
    image.outermostCallWithin method bound' (call.map move)
      = (tree.outermostCallWithin method bound call).map move := by
  induction bound generalizing bound' call with
  | zero => exact tops.elim
  | succ bound ih =>
    cases bound' with
    | zero => exact tops'.elim
    | succ bound' =>
      rw [Tree.outermostCallWithin, mirrors.callAround?, Tree.outermostCallWithin]
      cases found : tree.callAround? method call with
      | none => rfl
      | some around =>
        exact ih (tops_callAround method tops found) (tops_callAround method tops' found)

theorem outermostCall (tops : tree.Tops tree.depthBound call) :
    image.outermostCall method (call.map move) = (tree.outermostCall method call).map move :=
  mirrors.outermostCallWithin method tops (mirrors.tops_depthBound tops)

theorem runCalls (tops : tree.Tops tree.depthBound call)
    (grounded : tree.Grounded (tree.outermostCall method call)) :
    image.runCalls method (call.map move) = (tree.runCalls method call).map
      (Prod.map (Option.map move) (CalledMember.renumber move)) := by
  rw [Tree.runCalls, Tree.runCalls, mirrors.outermostCall method tops,
    mirrors.callsDownWithin method grounded (mirrors.ends_of_grounded grounded), List.map_reverse]

end

/-! ### Effects -/

section

variable {ref : Ref}

theorem isDeferredIn (child ancestor : Ref) :
    image.isDeferredIn (child.map move) (ancestor.map move) = tree.isDeferredIn child ancestor := by
  obtain ⟨g, same, -⟩ := mirrors.exists_kind ancestor
  rw [Tree.isDeferredIn, same, Tree.isDeferredIn]
  have differ (other : Ref) : (child.map move != other.map move) = (child != other) :=
    congrArg (!·) (mirrors.map_beq child other)
  cases tree.kind ancestor with
  | ifStmt condition thenBranch elseBranch => exact differ condition
  | forLoop declaration initializers condition incrementors body => exact differ declaration
  | forEach type name collection body => exact differ collection
  | binary op left right => exact congrArg (op.shortCircuits && ·) (mirrors.map_beq right child)
  | invoke callee arguments =>
    obtain ⟨g, same, -⟩ := mirrors.exists_kind child
    obtain ⟨g', same', -⟩ := mirrors.exists_kind callee
    simp only [Kind.bimap, same, same']
    cases tree.kind child with
    | argument modifier value =>
      cases tree.kind callee with
      | member receiver name conditional => cases conditional <;> rfl
      | _ => rfl
    | _ => rfl
  | _ => rfl

theorem hasEffectsBefore (child : Ref) {ancestor : Ref} (grounded : tree.Grounded ancestor) :
    image.hasEffectsBefore (child.map move) (ancestor.map move) =
    tree.hasEffectsBefore child ancestor := by
  rw [Tree.hasEffectsBefore, mirrors.children, List.takeWhile_map, List.any_map,
    Tree.hasEffectsBefore]
  have differ : ((· != child.map move) ∘ Option.map move) = (· != child) :=
    funext fun other => congrArg (!·) (mirrors.map_beq other child)
  rw [differ, Bool.eq_iff_iff, List.any_eq_true, List.any_eq_true]
  refine exists_congr fun other => and_congr_right fun member => ?_
  rw [Function.comp_apply,
    mirrors.hasEffects (grounded.child ((List.takeWhile_sublist _).subset member))]

theorem isEvaluatedFirstAlong (statement : Ref) {above : List Ref}
    (grounded : ∀ ancestor ∈ above, tree.Grounded ancestor) :
    image.isEvaluatedFirstAlong (statement.map move) (ref.map move) (above.map (Option.map move))
      = tree.isEvaluatedFirstAlong statement ref above := by
  induction above generalizing ref with
  | nil => rfl
  | cons ancestor above ih =>
    rw [List.map_cons, Tree.isEvaluatedFirstAlong, Tree.isEvaluatedFirstAlong, mirrors.isDeferredIn,
      mirrors.hasEffectsBefore ref (grounded _ (.head _)), mirrors.map_beq,
      ih fun other member => grounded other (.tail _ member)]

theorem isEvaluatedFirst {whole : Outline} (program : tree.IsProgram whole)
    (covers : whole.Covers ref)
    (statement : Ref) :
    image.isEvaluatedFirst (ref.map move) (statement.map move) =
    tree.isEvaluatedFirst ref statement := by
  rw [Tree.isEvaluatedFirst, mirrors.ancestors (program.tops covers), Tree.isEvaluatedFirst]
  exact mirrors.isEvaluatedFirstAlong statement fun ancestor member =>
    program.grounded (program.covers_lineage covers (.tail _ member))

end

/-! ### What names mean -/

section

variable {model imageModel : Model} (models : model.Mirrors move imageModel) {bound bound' : Nat}
  {ref : Ref}

include models

omit mirrors in
theorem sameName (left right : Ref) (leftName rightName : String) :
    Tree.sameName imageModel (left.map move) (right.map move) leftName rightName
      = Tree.sameName model left right leftName rightName := by
  rw [Tree.sameName, models.symbolOf, models.symbolOf, Tree.sameName]

theorem samePath {left right : Ref} (grounded : tree.Grounded left) :
    image.samePath imageModel (left.map move) (right.map move) =
    tree.samePath model left right := by
  refine congrFun (walks_agree (f := tree.samePathWithin model) (h := id)
    (g := fun bound left right => image.samePathWithin imageModel bound left (right.map move))
    (fun bound bound' => ?_) (fun bound bound' left ends ends' next => ?_) grounded
    (mirrors.ends_of_grounded grounded)) right
  · funext right
    cases bound <;> cases bound' <;> rfl
  · funext right
    obtain ⟨g, same, -⟩ := mirrors.exists_kind left
    obtain ⟨g', same', -⟩ := mirrors.exists_kind right
    simp only [id, samePathWithin, same, same']
    cases kind : tree.kind left with
    | ident name =>
      cases tree.kind right with
      | ident name' => exact sameName models left right name name'
      | _ => rfl
    | member receiver name conditional =>
      cases tree.kind right with
      | member receiver' name' conditional' =>
        have inside : Slot.one receiver ∈ (tree.kind left).slots := by rw [kind]; exact .head _
        have below := congrFun (next receiver fun present =>
            ⟨ends.one inside present, ends'.one inside present⟩) receiver'
        cases conditional <;> cases conditional' <;> first | rfl | exact congrArg (_ && ·) below
      | _ => cases conditional <;> rfl
    | _ => rfl

theorem isAt (referent : Referent) (ref : Ref) :
    (referent.renumber move).isAt image imageModel (ref.map move) =
    referent.isAt tree model ref := by
  cases referent with
  | symbol id =>
    obtain ⟨g, same, -⟩ := mirrors.exists_kind ref
    simp only [Referent.renumber, Referent.isAt, same, models.symbolOf]
    cases tree.kind ref <;> rfl
  | synthesized reference => exact mirrors.map_beq ref reference

theorem references (referent : Referent) (grounded : tree.Grounded ref) :
    (referent.renumber move).references image imageModel (ref.map move)
      = (referent.references tree model ref).map (Option.map move) := by
  rw [Referent.references, Referent.references, mirrors.descendants grounded, List.filter_map]
  congr 2
  funext ref
  exact mirrors.isAt models referent ref

theorem isReferencedIn (referent : Referent) (grounded : tree.Grounded ref) :
    (referent.renumber move).isReferencedIn image imageModel (ref.map move)
      = referent.isReferencedIn tree model ref := by
  rw [Referent.isReferencedIn, Referent.isReferencedIn, mirrors.descendants grounded, List.any_map]
  congr 1
  funext ref
  exact mirrors.isAt models referent ref

theorem captures {function : Abstraction} (name : String) (grounded : tree.Grounded function.body) :
    (function.renumber move).captures image imageModel name =
    function.captures tree model name := by
  simp only [Abstraction.captures, Abstraction.renumber, mirrors.descendants grounded, List.any_map]
  congr 1
  funext ref
  obtain ⟨g, same, -⟩ := mirrors.exists_kind ref
  rw [Function.comp_apply, same]
  have isAt := mirrors.isAt models function.referent ref
  cases tree.kind ref with
  | ident used => exact congrArg (fun found => used == name && !found) isAt
  | _ => rfl

theorem isComposable {function : Abstraction} (place : Nat)
    (grounded : tree.Grounded function.body) :
    (function.renumber move).isComposable image imageModel place =
    function.isComposable tree model place := by
  simp only [Abstraction.isComposable, Abstraction.renumber, mirrors.stripParens grounded,
    mirrors.isCall, mirrors.references models function.referent grounded, List.length_map]

theorem isElementAt {collection : Ref} (counter : SymbolId) (ref : Ref)
    (grounded : tree.Grounded ref) :
    image.isElementAt imageModel counter (collection.map move) (ref.map move)
      = tree.isElementAt model counter collection ref := by
  obtain ⟨g, same, lists⟩ := mirrors.exists_kind ref
  rw [Tree.isElementAt, same, Tree.isElementAt]
  cases kind : tree.kind ref with
  | index receiver arguments =>
    have items := (lists 1 arguments (by rw [kind]; rfl)).items
    have below : tree.Grounded receiver := grounded.one (by rw [kind]; exact .head _)
    simp only [Kind.bimap, items]
    rcases tree.items arguments with _ | ⟨position, _ | ⟨second, others⟩⟩
    · rfl
    · simp only [List.map, models.symbolOf, mirrors.samePath models below]
    · rfl
  | _ => rfl

omit models in
theorem passed {range range' : Range} (lists : MirrorsRange move tree image range range') :
    image.passed range' = (tree.passed range).map (Passed.renumber move) := by
  rw [Tree.passed, lists.items, List.filterMap_map, Tree.passed, List.map_filterMap]
  congr 1
  funext ref
  obtain ⟨g, same, -⟩ := mirrors.exists_kind ref
  rw [Function.comp_apply, same]
  cases tree.kind ref <;> rfl

theorem hole? {callee : Ref} {arguments : List Passed} (grounded : tree.Grounded callee)
    (groundedAll : ∀ argument ∈ arguments, tree.Grounded argument.value) :
    image.hole? imageModel (referent.renumber move) (callee.map move)
    (arguments.map (Passed.renumber move))
      = (tree.hole? model referent callee arguments).map (Prod.map (Passed.renumber move) id) := by
  have uses {ref : Ref} (grounded : tree.Grounded ref) :=
    mirrors.isReferencedIn models referent grounded
  have calls : (arguments.map (Passed.renumber move)).filter (Abstraction.isCall image ·.value)
      = (arguments.filter (Abstraction.isCall tree ·.value)).map (Passed.renumber move) := by
    rw [List.filter_map]
    congr 2
    funext argument
    exact mirrors.isCall argument.value
  have using' {some : List Passed} (among : some ⊆ arguments) :
      (some.map (Passed.renumber move)).filter
        ((referent.renumber move).isReferencedIn image imageModel ·.value) =
        (some.filter (referent.isReferencedIn tree model ·.value)).map (Passed.renumber move) := by
    rw [List.filter_map]
    exact congrArg _ (List.filter_congr fun argument member =>
      uses (groundedAll argument (among member)))
  have plain : (arguments.map (Passed.renumber move)).filter (fun argument =>
        argument.modifier = .plain && (referent.renumber move).isAt image imageModel argument.value)
      = (arguments.filter fun argument => argument.modifier
        = .plain && referent.isAt tree model argument.value).map (Passed.renumber move) := by
    rw [List.filter_map]
    congr 2
    funext argument
    exact congrArg (decide (argument.modifier = .plain) && ·)
      (mirrors.isAt models referent argument.value)
  have only (hole : Passed) :
      (arguments.map (Passed.renumber move)).all
        (fun other => other.argument = (hole.renumber move).argument ||
          !(referent.renumber move).isReferencedIn image imageModel other.value)
        = arguments.all fun other => other.argument = hole.argument ||
          !referent.isReferencedIn tree model other.value := by
    rw [List.all_map, Bool.eq_iff_iff, List.all_eq_true, List.all_eq_true]
    refine forall₂_congr fun other member => ?_
    simp only [Function.comp_apply, Passed.renumber, mirrors.map_inj,
      uses (groundedAll other member)]
  have among : arguments.filter (Abstraction.isCall tree ·.value) ⊆ arguments :=
    List.filter_subset_self _
  rw [Tree.hole?, Tree.hole?]
  simp only [calls, uses grounded]
  generalize arguments.filter (Abstraction.isCall tree ·.value) = found at among
  by_cases usesCallee : referent.isReferencedIn tree model callee = true
  · rw [if_pos usesCallee, if_pos usesCallee]
    rfl
  · rw [if_neg usesCallee, if_neg usesCallee]
    have chosen (some : Option (Passed × Bool)) :
        (some.map (Prod.map (Passed.renumber move) id)).filter (fun chosen =>
            (arguments.map (Passed.renumber move)).all fun other =>
            other.argument = chosen.1.argument ||
              !(referent.renumber move).isReferencedIn image imageModel other.value)
          = (some.filter fun chosen => arguments.all fun other =>
          other.argument = chosen.1.argument || !referent.isReferencedIn tree model other.value).map
              (Prod.map (Passed.renumber move) id) := by
      cases some with
      | none => rfl
      | some hole =>
        simp only [Option.map_some, Option.filter_some, Prod.map_fst, only hole.1]
        split <;> rfl
    rw [← chosen, plain]
    congr 1
    generalize (arguments.filter fun argument =>
      argument.modifier = .plain && referent.isAt tree model argument.value) = holes
    rcases found with _ | ⟨call, _ | _⟩
    · rcases holes with _ | ⟨hole, _ | _⟩ <;> rfl
    · have users := using' among
      simp only [List.map_cons, List.map_nil] at users ⊢
      rw [users]
      generalize List.filter (referent.isReferencedIn tree model ·.value) [call] = users'
      rcases users' with _ | ⟨user, _⟩
      · rcases holes with _ | ⟨hole, _ | _⟩ <;> rfl
      · change (if user.modifier = .plain then some (user.renumber move, true) else none) = _
        simp only
        split <;> rfl
    · rfl

/-- The layers of a composition. -/
theorem layersWithin (grounded : tree.Grounded ref) (ends : ref ≠ none → tree.Ends bound ref)
    (ends' : ref ≠ none → tree.Ends bound' ref) :
    image.layersWithin imageModel (referent.renumber move) bound' (ref.map move)
      = (tree.layersWithin model referent bound ref).map (List.map (Layer.renumber move)) := by
  induction bound generalizing bound' ref with
  | zero =>
    cases ref with
    | none => cases bound' <;> rfl
    | some number => exact (ends nofun).elim
  | succ bound ih =>
    cases ref with
    | none => cases bound' <;> rfl
    | some number =>
      cases bound' with
      | zero => exact (ends' nofun).elim
      | succ bound' =>
        obtain ⟨g, same, lists⟩ := mirrors.exists_kind (some number)
        rw [Tree.layersWithin, same, Tree.layersWithin]
        cases kind : tree.kind (some number) with
        | invoke callee arguments =>
          have isList : Slot.many arguments ∈ (tree.kind (some number)).slots := by
            rw [kind]; exact .tail _ (.head _)
          have isCallee : Slot.one callee ∈ (tree.kind (some number)).slots := by
            rw [kind]; exact .head _
          have below {passed : Passed}
              (member : passed ∈ tree.passed arguments) : tree.Grounded passed.value :=
            (grounded.item isList (mem_passed member).1).one (mem_passed member).2
          have within {passed : Passed} {bound : Nat} (ends : tree.Ends (bound + 1) (some number))
              (member : passed ∈ tree.passed arguments) (present : passed.value ≠ none) :
              tree.Ends bound passed.value := by
            have ends := ends.2 _ (List.mem_flatMap.2 ⟨_, isList, (mem_passed member).1⟩)
            cases bound with
            | zero => exact ends.elim
            | succ bound => exact (ends.one (mem_passed member).2 present).mono (Nat.le_succ _)
          have hole : image.hole? imageModel (referent.renumber move) (callee.map move)
                ((tree.passed arguments).map (Passed.renumber move))
              = (tree.hole? model referent callee (tree.passed arguments)).map
              (Prod.map (Passed.renumber move) id) :=
            mirrors.hole? models (grounded.one isCallee) fun _ => below
          simp only [Kind.bimap, mirrors.passed (lists 1 arguments (by rw [kind]; rfl)), hole]
          rcases chosen : tree.hole? model referent callee (tree.passed arguments)
            with _ | ⟨hole, _ | _⟩
          · rfl
          · rfl
          · have member := (hole?_eq_some chosen).1
            have next :=
              ih (below member) (within (ends nofun) member) (within (ends' nofun) member)
            simp only [Option.map_some, Prod.map_apply, id, Passed.renumber, next, Option.map_map]
            rfl
        | _ => rfl

theorem layers? (grounded : tree.Grounded ref) :
    image.layers? imageModel (referent.renumber move) (ref.map move)
      = (tree.layers? model referent ref).map (List.map (Layer.renumber move)) := by
  have inner := grounded.stripParens
  rw [Tree.layers?, Tree.layers?, mirrors.stripParens grounded,
    mirrors.layersWithin models inner inner (mirrors.ends_of_grounded inner)]
  cases tree.layersWithin model referent tree.depthBound (tree.stripParens ref) with
  | none => rfl
  | some layers =>
    simp only [Option.map_some, Option.filter_some, List.length_map]
    split <;> rfl

/-! ### Hazards of loops -/

omit models in
theorem isCaptured (body : Ref) (tops : tree.Tops tree.depthBound ref) :
    image.isCaptured (body.map move) (ref.map move) = tree.isCaptured body ref := by
  rw [Tree.isCaptured, mirrors.ancestors tops, List.takeWhile_map, List.any_map, Tree.isCaptured]
  have differ : ((· != body.map move) ∘ Option.map move) = (· != body) :=
    funext fun other => congrArg (!·) (mirrors.map_beq other body)
  rw [differ]
  congr 1
  funext ref
  obtain ⟨g, same, -⟩ := mirrors.exists_kind ref
  rw [Function.comp_apply, same]
  cases tree.kind ref <;> rfl

theorem elementAccess? (collection : Ref) (grounded : tree.Grounded (tree.parent ref)) :
    image.elementAccess? imageModel (collection.map move) (ref.map move)
      = (tree.elementAccess? model collection ref).map (Option.map move) := by
  rw [Tree.elementAccess?, mirrors.parent, Tree.elementAccess?]
  cases parent : tree.parent ref with
  | none => rfl
  | some access =>
    rw [parent] at grounded
    obtain ⟨g, same, lists⟩ := mirrors.exists_kind (some access)
    simp only [Option.map_some] at same ⊢
    rw [same]
    cases kind : tree.kind (some access) with
    | index receiver arguments =>
      have items := (lists 1 arguments (by rw [kind]; rfl)).items
      have below : tree.Grounded receiver := grounded.one (by rw [kind]; exact .head _)
      have single : image.items (g 1 arguments) = [ref.map move] ↔
          tree.items arguments = [ref] := by
        rw [items]
        exact @map_list_inj _ _ _ mirrors (tree.items arguments) [ref]
      simp only [Kind.bimap, mirrors.samePath models below, single]
      split <;> rfl
    | _ => rfl

omit models in
theorem isWrittenThrough (above : List Ref) :
    image.isWrittenThrough (ref.map move) (above.map (Option.map move)) =
    tree.isWrittenThrough ref above := by
  induction above generalizing ref with
  | nil => exact mirrors.isWritten ref
  | cons parent above ih =>
    obtain ⟨g, same, -⟩ := mirrors.exists_kind parent
    rw [List.map_cons, Tree.isWrittenThrough, mirrors.isWritten, same, ih, Tree.isWrittenThrough]
    cases tree.kind parent with
    | member receiver name conditional =>
      simp only [Kind.bimap, mirrors.map_beq]
    | _ => rfl

omit models in
theorem isElementWritten (tops : tree.Tops tree.depthBound ref) :
    image.isElementWritten (ref.map move) = tree.isElementWritten ref := by
  rw [Tree.isElementWritten, mirrors.ancestors tops, mirrors.isWrittenThrough,
    Tree.isElementWritten]

section

variable {whole : Outline} (program : tree.IsProgram whole) {body collection : Ref}
  (coversBody : whole.Covers body) (coversCollection : whole.Covers collection)

include program coversBody

include coversCollection in
theorem collectionHazard? : image.collectionHazard? imageModel (body.map move) (collection.map move)
    = tree.collectionHazard? model body collection := by
  have root := program.grounded coversCollection
  simp only [Tree.collectionHazard?, mirrors.descendants (program.grounded coversBody),
    List.any_map, mirrors.pathRoot root]
  have reassigned :
      (tree.descendants body).any ((fun ref => image.isWritten ref && image.isStablePath ref &&
        image.samePath imageModel (image.pathRoot ref) ((tree.pathRoot collection).map move)) ∘
          Option.map move)
      = (tree.descendants body).any fun ref => tree.isWritten ref && tree.isStablePath ref &&
        tree.samePath model (tree.pathRoot ref) (tree.pathRoot collection) := by
    rw [Bool.eq_iff_iff, List.any_eq_true, List.any_eq_true]
    refine exists_congr fun ref => and_congr_right fun member => ?_
    have grounded := program.grounded (program.covers_descendant coversBody member)
    rw [Function.comp_apply, mirrors.isWritten, mirrors.isStablePath grounded,
      mirrors.pathRoot grounded, mirrors.samePath models grounded.pathRoot]
  rw [reassigned]

omit coversBody in
theorem counterUseHazard? (covers : whole.Covers ref) :
    image.counterUseHazard? imageModel (body.map move) (collection.map move) (ref.map move)
      = tree.counterUseHazard? model body collection ref := by
  have above := program.covers_parent covers
  rw [Tree.counterUseHazard?, mirrors.isCaptured body (program.tops covers),
    mirrors.elementAccess? models collection (program.grounded above), Tree.counterUseHazard?]
  cases found : tree.elementAccess? model collection ref with
  | none => rfl
  | some access =>
    obtain rfl := eq_parent_of_elementAccess? found
    simp only [Option.map_some, mirrors.isElementWritten (program.tops above)]

/-- The nodes in the body of a loop that refer to its variable. -/
theorem uses (symbol : SymbolId) :
    (image.descendants (body.map move)).filter (imageModel.symbolOf · == some symbol)
      = ((tree.descendants body).filter (model.symbolOf · == some symbol)).map
      (Option.map move) := by
  rw [mirrors.descendants (program.grounded coversBody), List.filter_map]
  congr 2
  funext ref
  rw [Function.comp_apply, models.symbolOf]

include coversCollection in
theorem countedLoopHazard? (counter : SymbolId) :
    image.countedLoopHazard? imageModel (body.map move) counter (collection.map move)
      = tree.countedLoopHazard? model body counter collection := by
  have each : ∀ use ∈ (tree.descendants body).filter (model.symbolOf · == some counter),
      (image.counterUseHazard? imageModel (body.map move) (collection.map move) ∘
      Option.map move) use = tree.counterUseHazard? model body collection use := fun use member =>
    mirrors.counterUseHazard? models program
    (program.covers_descendant coversBody (List.mem_filter.1 member).1)
  simp only [Tree.countedLoopHazard?, mirrors.uses models program coversBody, List.filterMap_map,
    mirrors.collectionHazard? models program coversBody coversCollection, ← List.head?_filterMap]
  rw [List.filterMap_congr each]

omit models coversBody in
theorem elementUseHazard? (covers : whole.Covers ref) :
    image.elementUseHazard? (body.map move) (ref.map move) = tree.elementUseHazard? body ref := by
  rw [Tree.elementUseHazard?, mirrors.isWritten, mirrors.isCaptured body (program.tops covers),
    Tree.elementUseHazard?]

include coversCollection in
theorem elementLoopHazard? (element : SymbolId) :
    image.elementLoopHazard? imageModel (body.map move) element (collection.map move)
      = tree.elementLoopHazard? model body element collection := by
  have each : ∀ use ∈ (tree.descendants body).filter (model.symbolOf · == some element),
      (image.elementUseHazard? (body.map move) ∘ Option.map move) use
      = tree.elementUseHazard? body use := fun use member => mirrors.elementUseHazard? program
    (program.covers_descendant coversBody (List.mem_filter.1 member).1)
  simp only [Tree.elementLoopHazard?, mirrors.uses models program coversBody, List.filterMap_map,
    mirrors.collectionHazard? models program coversBody coversCollection,
    mirrors.isStablePath (program.grounded coversCollection), ← List.head?_filterMap]
  rw [List.filterMap_congr each]

end

end

end Mirrors

end Tree

end Refactory
