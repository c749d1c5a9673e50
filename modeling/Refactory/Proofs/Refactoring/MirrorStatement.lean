import Refactory.Proofs.Refactoring.Mirror

/-!
# Refactoring statements of mirrored trees

Inverting a quantifier, turning a loop into one of the other kind, and inlining or introducing
temporaries, in a tree and in an image of it. With that each refactoring that is tried at a node is
tried with the same outcome at the corresponding node of the image (`Context.Mirrors.attempt`).
-/
namespace Refactory

open Refactory.Tree

/-! ### Inverting quantifiers -/

namespace QuantifierCall

variable {move : Nat → Nat} {tree image : Tree}

/-- Negating corresponding bodies. -/
theorem negated_tracks
    (body : Ref) : Change.Tracks move (negated body) (negated (body.map move)) tree image
    fun after afterImage made made' =>
    made' = made.map move ∧ GrowAlike move tree image after afterImage := by
  refine .given fun mirrors => .get_bind ?_
  obtain ⟨g, same, -⟩ := mirrors.exists_kind body
  have added : Change.Tracks move (liftM (Build.unary .not body))
      (liftM (Build.unary .not (body.map move))) tree image fun after afterImage made made' =>
      made' = made.map move ∧ GrowAlike move tree image after afterImage :=
    .lift (Build.unary_tracks .not body) fun _ _ _ _ grow found => ⟨found.1, grow⟩
  rw [same]
  cases tree.kind body with
  | unary op operand =>
    cases op with
    | not =>
      obtain ⟨g, same, -⟩ := mirrors.exists_kind operand
      simp only [Kind.bimap, same]
      cases tree.kind operand <;> exact .pure ⟨rfl, .refl mirrors⟩
    | _ => exact Change.throw_tracks _ _
  | binary op left right =>
    cases isOpposite : op.negated? with
    | none =>
      simp only [isOpposite]
      exact Change.throw_tracks _ _
    | some opposite =>
      refine .require_bind isOpposite isOpposite ?_
      have kinds : MirrorsKind move tree image (.binary opposite left right)
          (.binary opposite (left.map move) (right.map move)) := ⟨.cons rfl (.cons rfl .nil), rfl⟩
      exact .lift (alloc_tracks (fun _ => kinds) _ _) fun _ _ _ _ grow found => ⟨found.1, grow⟩
  | ident _ => exact added
  | member _ _ _ => exact added
  | invoke _ _ => exact added
  | _ => exact Change.throw_tracks _ _

/-- Negating corresponding calls where they stand. -/
theorem negateCall_tracks {call : Ref} (tops : tree.Tops tree.depthBound call) :
    Change.Tracks move (negateCall call) (negateCall (call.map move)) tree image fun _ _ _ _ =>
    True := by
  refine .given fun mirrors => .get_bind ?_
  have outer : image.aroundParens (call.map move) (image.ancestors (call.map move))
      = (tree.aroundParens call (tree.ancestors call)).map move := by
    rw [mirrors.ancestors tops, mirrors.aroundParens]
  simp only [outer, mirrors.parent, mirrors.isNegation, mirrors.needsParensNegated,
    Option.isSome_map]
  split
  · exact Change.put_tracks _ _ _
  · refine (Change.Tracks.lift (Build.unary_tracks .not call) fun _ _ _ _ _ => And.left).bind
      fun _ _ negation _ isNegation => ?_
    subst isNegation
    split
    · refine (Change.Tracks.lift (Build.paren_tracks negation) fun _ _ _ _ _ => And.left).bind
        fun _ _ wrapped _ isWrapped => ?_
      subst isWrapped
      exact Change.put_tracks _ _ _
    · exact Change.put_tracks _ _ _

/-- Inverting corresponding calls. -/
theorem invert_tracks {whole : Outline} (program : tree.IsProgram whole) {call : QuantifierCall}
    {ref : Ref}
    (member : ref ∈ whole.refs) (found : tree.quantifierCall? ref = some call) :
    Change.Tracks move call.invert (call.renumber move).invert tree image fun _ _ _ _ => True := by
  refine .given fun mirrors => .get_bind ?_
  obtain ⟨term, within, rfl⟩ := Term.mem_refs.1 member
  obtain ⟨access, argument, lambda, param, receiver, body, conditional, parenthesized,
    quantifies, isCall, negatable, isCalled, isPassed⟩ :=
    exists_quantifies (program.stands.subterm within).shown found
  obtain ⟨range, body', middle, predicated, renamed, dual, isLambda, madeBody, setLambda,
    setAccess, -, isRenamed, sameDual, -⟩ := quantifies.dualize program within negatable
  have called : image.calledMember? (call.renumber move).call = _ :=
    (mirrors.calledMember? call.call).trans (congrArg _ (isCall ▸ isCalled))
  have passed : image.singleArgument? (call.renumber move).call = _ :=
    (mirrors.singleArgument? call.call).trans (congrArg _ (isCall ▸ isPassed))
  refine .require_bind (isCall ▸ isCalled) called (.require_bind (isCall ▸ isPassed) passed ?_)
  obtain ⟨g, same, lists⟩ := mirrors.exists_kind lambda.ref
  simp only [isLambda] at same lists
  have params := lists 0 range rfl
  simp only [isLambda, same, Kind.bimap]
  refine ((negated_tracks body.ref).also
    (fun after made => after = middle ∧ made = refOf body') ?_).bind ?_
  · rintro value after made
    cases madeBody.symm.trans made
    exact ⟨rfl, rfl⟩
  rintro middle middleImage _ _ ⟨⟨rfl, grow⟩, rfl, rfl⟩
  have kinds : MirrorsKind move middle middleImage (.lambda range (refOf body') parenthesized)
      (.lambda (g 0 range) ((refOf body').map move) parenthesized) :=
    ⟨.cons (params.grow grow.grows.lists grow.growsImage.lists) (.cons rfl .nil), rfl⟩
  have predicates : Change.Tracks move
      (liftM (Tree.setKind lambda.ref (.lambda range (refOf body') parenthesized)))
      (liftM (Tree.setKind (lambda.ref.map move)
      (.lambda (g 0 range) ((refOf body').map move) parenthesized)))
      middle middleImage fun after _ _ _ => after = predicated :=
    .edits fun mirrors => ⟨mirrors.setKind kinds lambda.ref, congrArg Prod.snd setLambda⟩
  refine predicates.bind ?_
  rintro predicated predicatedImage _ _ rfl
  have kinds : MirrorsKind move predicated predicatedImage
      (.member (refOf receiver) call.quantifier.dual.method conditional)
      (.member ((refOf receiver).map move) call.quantifier.dual.method conditional) :=
    ⟨.cons rfl .nil, rfl⟩
  have renames : Change.Tracks move (liftM
      (Tree.setKind access.ref (.member (refOf receiver) call.quantifier.dual.method conditional)))
      (liftM (Tree.setKind (access.ref.map move)
      (.member ((refOf receiver).map move) call.quantifier.dual.method conditional)))
      predicated predicatedImage fun after _ _ _ => after = renamed :=
    .edits fun mirrors => ⟨mirrors.setKind kinds access.ref, congrArg Prod.snd setAccess⟩
  refine renames.bind ?_
  rintro renamed _ _ _ rfl
  have inside :=
    Term.refs_subset (Term.mem_subterms_swap program.stands.once within) (Term.ref_mem_refs dual)
  rw [sameDual] at inside
  refine negateCall_tracks (isRenamed.tops fun _ => ?_)
  rwa [isCall]

end QuantifierCall

namespace Context.Mirrors

variable {move : Nat → Nat} {context image : Context} (mirrors : context.Mirrors move image)
  {whole : Outline} (program : context.tree.IsProgram whole) {ref : Ref} (member : ref ∈ whole.refs)

include mirrors program member

/-- Inverting quantifiers around corresponding nodes is offered for both or for none. -/
theorem invertQuantifier :
    OffersAlike move (context.invertQuantifier ref) (image.invertQuantifier (ref.map move)) := by
  have isStatement := program.statementOf_mem member
  have found : (image.tree.descendants (image.tree.statementOf (ref.map move))).findSome?
      image.tree.quantifierCall?
      = ((context.tree.descendants (context.tree.statementOf ref)).findSome?
        context.tree.quantifierCall?).map (QuantifierCall.renumber move) := by
    rw [mirrors.tree.statementOf (program.tops fun _ => member),
      mirrors.tree.descendants (program.grounded fun _ => isStatement)]
    exact findSome?_map_of fun call _ => mirrors.tree.quantifierCall? call
  rw [Context.invertQuantifier, Context.invertQuantifier, found]
  cases isFound : (context.tree.descendants (context.tree.statementOf ref)).findSome?
    context.tree.quantifierCall? with
  | none => exact refuse_alike _
  | some call =>
    obtain ⟨target, isBelow, isCall⟩ := List.exists_of_findSome?_eq_some isFound
    exact offer_alike _ _ mirrors.tree
      (call.invert_tracks program (program.descendants_subset isStatement isBelow) isCall)

end Context.Mirrors

/-! ### Converting loops -/

namespace CountedLoop

variable {move : Nat → Nat} {tree image : Tree}

/-- Loops over elements in the places of corresponding loops. -/
theorem toElementLoop_tracks (loop : CountedLoop) (name : String) (body : Ref) :
    Change.Tracks move (loop.toElementLoop name body)
      ((loop.renumber move).toElementLoop name (body.map move)) tree image
      fun _ _ _ _ => True := by
  refine .given fun mirrors => .get_bind ?_
  refine (Change.Tracks.lift (Build.typeRef_tracks "var") fun _ _ _ _ _ =>
    And.left).bind fun middle middleImage type _ isType => ?_
  subst isType
  have kinds : MirrorsKind move middle middleImage (.forEach type name loop.collection body)
      (.forEach (type.map move) name (loop.collection.map move) (body.map move)) :=
    ⟨.cons rfl (.cons rfl (.cons rfl .nil)), rfl⟩
  refine (Change.Tracks.lift (alloc_tracks (fun _ => kinds) _ _) fun _ _ _ _ _ => And.left).bind
    fun _ _ converted _ isConverted => ?_
  subst isConverted
  rw [show image.parent (loop.renumber move).ref = _ from mirrors.parent loop.ref]
  exact Change.put_tracks _ _ _

end CountedLoop

namespace ElementLoop

variable {move : Nat → Nat} {tree image : Tree} (loop : ElementLoop)

/-- What the elements of corresponding loops are read from. -/
theorem source_tracks (access : Access) (name : String) (grounded : tree.Grounded loop.collection) :
    Edit.Tracks move (loop.source access name) ((loop.renumber move).source access name) tree image
      fun after _ source source' => source' = (source.1.map move, source.2.map (Option.map move)) ∧
        after.Grounded source.1 := by
  cases access with
  | inPlace => exact .pure fun _ => ⟨rfl, grounded⟩
  | «local» =>
    refine (Build.localDecl_tracks "var" name loop.collection).bind
      fun _ _ declaration _ _ isDeclaration => ?_
    refine (Build.ident_tracks name).bind fun _ _ target _ _ isTarget => .pure fun _ => ?_
    rw [isDeclaration.1, isTarget.1]
    exact ⟨rfl, isTarget.2 trivial⟩
  | array =>
    refine (Build.member_tracks loop.collection "ToArray" false).bind
      fun _ _ conversion _ _ isConversion => ?_
    rw [isConversion.1]
    refine (Build.invoke_tracks conversion []).bind fun _ _ value _ _ isValue => ?_
    rw [isValue.1]
    refine (Build.localDecl_tracks "var" name value).bind fun _ _ declaration _ _ isDeclaration =>
      ?_
    refine (Build.ident_tracks name).bind fun _ _ target _ _ isTarget => .pure fun _ => ?_
    rw [isDeclaration.1, isTarget.1]
    exact ⟨rfl, isTarget.2 trivial⟩

/-- Counted loops for corresponding loops. -/
theorem counted_tracks (target : Ref) (sizeMember counter : String) (body : Ref) :
    Edit.Tracks move (loop.counted target sizeMember counter body)
      ((loop.renumber move).counted (target.map move) sizeMember counter (body.map move)) tree image
      fun _ _ made made' => made' = made.map move := by
  refine (Build.int_tracks 0).bind fun _ _ zero _ _ isZero => ?_
  rw [isZero.1]
  refine (Build.localDecl_tracks "int" counter zero).bind fun _ _ declaration _ _ isDeclaration =>
    ?_
  rw [isDeclaration.1]
  refine (Build.member_tracks target sizeMember false).bind fun _ _ size _ _ isSize => ?_
  rw [isSize.1]
  refine (Build.ident_tracks counter).bind fun _ _ tested _ _ isTested => ?_
  rw [isTested.1]
  refine (Build.binary_tracks .lt tested size).bind fun _ _ condition _ _ isCondition => ?_
  rw [isCondition.1]
  refine (Build.ident_tracks counter).bind fun _ _ stepped _ _ isStepped => ?_
  rw [isStepped.1]
  refine (Build.unary_tracks .postInc stepped).bind fun _ _ step _ _ isStep => ?_
  rw [isStep.1]
  refine (allocList_tracks [step]).bind fun middle middleImage steps steps' _ ⟨⟨lists, _⟩, _⟩ =>
    .get_bind ?_
  have kinds :
      MirrorsKind move middle middleImage (.forLoop declaration .empty condition steps body)
        (.forLoop (declaration.map move) .empty (condition.map move) steps' (body.map move)) :=
    ⟨.cons rfl (.cons (SlotTwins.empty).1 (.cons rfl (.cons lists (.cons rfl .nil)))), rfl⟩
  exact (alloc_tracks (fun _ => kinds) _ _).mono fun _ _ _ _ _ found => found.1

/-- Counted loops in the places of corresponding loops. -/
theorem toCountedLoop_tracks {model imageModel : Model} (models : model.Mirrors move imageModel)
    (element : SymbolId) (access : Access) (sizeMember name counter : String)
    (groundedCollection : tree.Grounded loop.collection)
    (groundedBody : tree.Grounded loop.body) :
    Change.Tracks move (loop.toCountedLoop model element access sizeMember name counter)
      ((loop.renumber move).toCountedLoop imageModel element access sizeMember name counter) tree
      image fun _ _ _ _ => True := by
  refine .given fun mirrors => .get_bind ?_
  rw [show image.parent (loop.renumber move).ref = _ from mirrors.parent loop.ref]
  refine (Change.Tracks.lift (loop.source_tracks access name groundedCollection)
    fun _ _ _ _ grow found =>
    And.intro found grow).bind fun middle middleImage source _ ⟨⟨isSource, groundedTarget⟩, grow⟩ =>
    ?_
  subst isSource
  obtain ⟨target, declaration⟩ := source
  refine (Change.Tracks.lift
    (indexElements_tracks models element counter groundedTarget (grow.grounded groundedBody))
    fun _ _ _ _ _ => And.left).bind fun _ _ body _ isBody => ?_
  subst isBody
  refine (Change.Tracks.lift (loop.counted_tracks target sizeMember counter body)
    fun _ _ _ _ _ found => found).bind
    fun _ _ converted _ isConverted => ?_
  subst isConverted
  refine (Change.put_tracks _ _ converted).bind fun _ _ _ _ _ => ?_
  cases declaration with
  | none => exact .pure trivial
  | some declaration => exact Change.putBefore_tracks converted [declaration]

end ElementLoop

namespace Tree.IsProgram

variable {tree : Tree} {whole : Outline} (program : tree.IsProgram whole) {ref : Ref}
  (member : ref ∈ whole.refs)

include program member

/-- The parts of a counted loop in a program are in the program. -/
theorem covers_countedLoop {model : Model} {loop : CountedLoop}
    (found : tree.countedLoop? model ref = some loop) :
    whole.Covers loop.ref ∧ whole.Covers loop.collection ∧ whole.Covers loop.body := by
  obtain ⟨term, within, rfl⟩ := Term.mem_refs.1 member
  obtain ⟨collection, _, body, _, stands⟩ :=
    stands_of_countedLoop? (program.stands.subterm within) found
  have inWhole {part : Ref}
      (inside : part ∈ (body.toList ++ [collection]).flatMap Term.refs) : part ∈ whole.refs :=
    Term.refs_subset within (Term.refs_eq term ▸ .tail _ (stands.inside inside))
  refine ⟨fun _ => stands.isLoop ▸ member, fun _ =>
    stands.isCollection ▸ inWhole (by simp [Term.ref_mem_refs]), fun present => ?_⟩
  rw [stands.isBody] at present ⊢
  cases body with
  | none => exact absurd rfl present
  | some body => exact inWhole (by simp [Term.ref_mem_refs])

/-- The parts of a loop over elements in a program are in the program. -/
theorem covers_elementLoop {loop : ElementLoop} (found : tree.elementLoop? ref = some loop) :
    whole.Covers loop.ref ∧ whole.Covers loop.collection ∧ whole.Covers loop.body := by
  obtain ⟨term, within, rfl⟩ := Term.mem_refs.1 member
  obtain ⟨collection, body, isLoop, isCollection, isBody, -, below, -⟩ :=
    stands_of_elementLoop? (program.stands.subterm within) found
  have inWhole (part : Option Outline) (inside : part.toList ⊆ collection.toList ++ body.toList) :
      whole.Covers (refOf part) := by
    intro present
    cases part with
    | none => exact absurd rfl present
    | some part =>
      refine Term.refs_subset within (Term.refs_eq term ▸ .tail _ (below ?_))
      exact List.mem_flatMap.2 ⟨part, inside (by simp), Term.ref_mem_refs part⟩
  exact ⟨fun _ =>
    isLoop ▸ member, isCollection ▸ inWhole collection (by simp), isBody ▸ inWhole body (by simp)⟩

end Tree.IsProgram

namespace Context.Mirrors

variable {move : Nat → Nat} {context image : Context} (mirrors : context.Mirrors move image)
  {whole : Outline} (program : context.tree.IsProgram whole) {ref : Ref} (member : ref ∈ whole.refs)

include mirrors program

/-- The first loops without hazards among corresponding loops correspond. -/
theorem firstSafe {loops : List CountedLoop}
    (covers : ∀ loop ∈ loops, whole.Covers loop.collection ∧ whole.Covers loop.body) :
    Attempt.Tracks (context.firstSafe loops)
    (image.firstSafe (loops.map (CountedLoop.renumber move))) fun found found' =>
        found' = found.map (CountedLoop.renumber move) ∧ ∀ loop ∈ found, loop ∈ loops := by
  induction loops with
  | nil => exact .pure ⟨rfl, nofun⟩
  | cons loop loops ih =>
    obtain ⟨coversCollection, coversBody⟩ := covers loop (.head _)
    have hazard : (loop.renumber move).hazard? image.tree image.model
        = loop.hazard? context.tree context.model :=
      mirrors.tree.countedLoopHazard? mirrors.model program coversBody coversCollection loop.counter
    rw [List.map_cons, Context.firstSafe, Context.firstSafe, hazard]
    split
    · exact .pure ⟨rfl, by simp⟩
    · refine (Attempt.Tracks.same _).bind fun _ _ _ => ?_
      refine (ih fun other inside => covers other (.tail _ inside)).mono fun _ _ found => ?_
      exact ⟨found.1, fun other isFound => .tail _ (found.2 other isFound)⟩

include member

/-- Converting counted loops around corresponding nodes is offered for both or for none. -/
theorem forToForEach :
    OffersAlike move (context.forToForEach ref) (image.forToForEach (ref.map move)) := by
  have inWhole := program.lineage_subset member
  have loops : (image.tree.lineage (ref.map move)).filterMap (image.tree.countedLoop? image.model)
      = ((context.tree.lineage ref).filterMap (context.tree.countedLoop? context.model)).map
        (CountedLoop.renumber move) := by
    rw [mirrors.tree.lineage (program.tops fun _ => member)]
    exact filterMap_map_of fun other inside =>
      mirrors.tree.countedLoop? mirrors.model (program.grounded fun _ => inWhole inside)
  have covers {loop : CountedLoop} (inside : loop ∈ (context.tree.lineage ref).filterMap
      (context.tree.countedLoop? context.model)) :
      whole.Covers loop.ref ∧ whole.Covers loop.collection ∧ whole.Covers loop.body := by
    obtain ⟨other, inLineage, isLoop⟩ := List.mem_filterMap.1 inside
    exact program.covers_countedLoop (inWhole inLineage) isLoop
  rw [Context.forToForEach, Context.forToForEach]
  simp only [loops]
  refine (mirrors.firstSafe program fun _ inside => (covers inside).2).bind ?_
  rintro found _ ⟨rfl, inside⟩
  cases found with
  | none => exact none_alike
  | some loop =>
    obtain ⟨coversLoop, coversCollection, coversBody⟩ := covers (inside loop rfl)
    have suggested : (loop.renumber move).suggestedNames image.tree image.model
        = loop.suggestedNames context.tree context.model := by
      simp only [CountedLoop.suggestedNames, CountedLoop.renumber, mirrors.tree.lastName?,
        mirrors.model.typeOf]
    simp only [Option.map_some, suggested, mirrors.settings]
    refine (Attempt.Tracks.pickName (mirrors.namesAt (program.grounded coversLoop)) _ _).bind ?_
    rintro ⟨_, _⟩ ⟨name, _⟩ ⟨rfl, -⟩
    have twins := nameElements_tracks mirrors.model loop.counter loop.collection name
      (program.grounded coversBody) mirrors.tree
    simp only [StateT.run]
    rw [show nameElements image.model (loop.renumber move).counter
      (loop.renumber move).collection name (loop.renumber move).body image.tree
      = nameElements image.model loop.counter (loop.collection.map move) name
        (loop.body.map move) image.tree from rfl]
    generalize nameElements context.model loop.counter loop.collection name loop.body context.tree
      = named at twins ⊢
    generalize nameElements image.model loop.counter (loop.collection.map move) name
      (loop.body.map move) image.tree = named' at twins ⊢
    obtain ⟨⟨body, count⟩, scratch⟩ := named
    obtain ⟨⟨_, _⟩, scratchImage⟩ := named'
    obtain ⟨grow, sameCount, isBody, -⟩ := twins
    dsimp only at grow sameCount isBody
    subst sameCount isBody
    refine (Attempt.Tracks.same _).bind fun _ _ _ => ?_
    exact offer_alike _ _ grow.mirrors (loop.toElementLoop_tracks name body)

omit program member in
theorem accessName {scope scope' : NameScope} (alike : scope.Alike scope') (access : Access) :
    Attempt.Tracks (context.accessName scope access) (image.accessName scope' access)
      fun picked picked' => picked'.1 = picked.1 ∧ picked.2.Alike picked'.2 := by
  cases access with
  | inPlace => exact .pure ⟨rfl, alike⟩
  | «local» =>
    rw [Context.accessName, Context.accessName, mirrors.settings]
    exact .pickName alike _ _
  | array =>
    rw [Context.accessName, Context.accessName, mirrors.settings]
    exact .pickName alike _ _

/-- Converting loops over elements around corresponding nodes is offered for both or for none. -/
theorem forEachToFor :
    OffersAlike move (context.forEachToFor ref) (image.forEachToFor (ref.map move)) := by
  have inWhole := program.lineage_subset member
  have found : (do
        let loop ← (image.tree.lineage (ref.map move)).findSome? image.tree.elementLoop?
        return (loop, ← image.model.declaredSymbol loop.ref) : Option (ElementLoop × SymbolId))
      = (do
        let loop ← (context.tree.lineage ref).findSome? context.tree.elementLoop?
        return (loop, ← context.model.declaredSymbol loop.ref)).map
          (Prod.map (ElementLoop.renumber move) id) := by
    rw [mirrors.tree.lineage (program.tops fun _ => member),
      findSome?_map_of fun other _ => mirrors.tree.elementLoop? other]
    refine bind_of fun loop _ => ?_
    rw [show image.model.declaredSymbol (loop.renumber move).ref
      = _ from mirrors.model.declaredSymbol loop.ref]
    exact bind_same fun _ _ => rfl
  rw [Context.forEachToFor, Context.forEachToFor]
  simp only [found]
  cases isFound : (do
      let loop ← (context.tree.lineage ref).findSome? context.tree.elementLoop?
      return (loop, ← context.model.declaredSymbol loop.ref) : Option (ElementLoop × SymbolId)) with
  | none => exact none_alike
  | some found =>
    obtain ⟨loop, element⟩ := found
    obtain ⟨other, isLoop, same⟩ := Option.bind_eq_some_iff.1 isFound
    obtain ⟨_, -, same⟩ := Option.bind_eq_some_iff.1 same
    obtain ⟨rfl, rfl⟩ := Prod.mk.inj (Option.some.inj same)
    obtain ⟨target, inLineage, isLoop⟩ := List.exists_of_findSome?_eq_some isLoop
    obtain ⟨coversLoop, coversCollection, coversBody⟩ :=
      program.covers_elementLoop (inWhole inLineage) isLoop
    have hazard := mirrors.tree.elementLoopHazard? mirrors.model program coversBody coversCollection
    have groundedCollection := program.grounded coversCollection
    have access : (other.renumber move).access? image.tree image.model
        = other.access? context.tree context.model := by
      simp only [ElementLoop.access?, ElementLoop.renumber, mirrors.model.typeOf,
        mirrors.tree.isStablePath groundedCollection]
    simp only [Option.map_some, Prod.map, access, id_eq, mirrors.settings]
    rw [show image.tree.elementLoopHazard? image.model
      (other.renumber move).body _ (other.renumber move).collection = _ from hazard _]
    split
    · exact refuse_alike _
    · exact refuse_alike _
    · refine (mirrors.accessName (mirrors.namesAt (program.grounded coversLoop)) _).bind ?_
      rintro ⟨_, _⟩ ⟨name, scope⟩ ⟨rfl, alike⟩
      refine (Attempt.Tracks.pickName alike _ _).bind ?_
      rintro ⟨_, _⟩ ⟨counter, _⟩ ⟨rfl, -⟩
      exact offer_alike _ _ mirrors.tree
        (other.toCountedLoop_tracks mirrors.model _ _ _ _ _ groundedCollection
        (program.grounded coversBody))

end Context.Mirrors

/-! ### Inlining and introducing temporaries -/

/-- The calls above a call are below the outermost one. -/
theorem Term.Climbs.mem_refs {call outer : Outline} {calls : List Ref}
    (climbs : Climbs call calls outer) :
    ∀ ref ∈ call.ref :: calls, ref ∈ outer.refs := by
  induction climbs with
  | top => simpa using Term.ref_mem_refs _
  | up isCall isAccess above ih =>
    refine List.forall_mem_cons.2 ⟨?_, ih⟩
    exact Term.refs_subset (Climbs.up isCall isAccess above).mem_subterms (Term.ref_mem_refs _)

/-- The calls of a chain in a program are in the program. -/
theorem Tree.IsProgram.covers_callChain {tree : Tree} {whole : Outline}
    (program : tree.IsProgram whole) {ref : Ref}
    (member : ref ∈ whole.refs) {calls : List Ref} (found : tree.callChain? ref = some calls) :
    ∀ call ∈ calls, whole.Covers call := by
  obtain ⟨statement, within, rfl⟩ := Term.mem_refs.1 member
  obtain ⟨call, others, outer, rest, rfl, -, climbs, inside, -⟩ :=
    Context.exists_climbs_of_callChain? program within found
  exact fun other isCall _ => Term.refs_subset inside (climbs.mem_refs other isCall)

namespace Link

variable {move : Nat → Nat} {tree image : Tree} (link : Link)

/-- Inlining corresponding temporaries. -/
theorem inline_tracks :
    Change.Tracks move link.inline (link.renumber move).inline tree image fun _ _ _ _ => True := by
  refine .given fun mirrors => .get_bind ?_
  rw [show image.parent (link.renumber move).use = _ from mirrors.parent link.use]
  exact Change.put_tracks _ _ _

/-- Removing corresponding declarations. -/
theorem remove_tracks (list : Ref) :
    Change.Tracks move (link.remove list) ((link.renumber move).remove (list.map move)) tree image
    fun _ _ _ _ => True := by
  have places : Change.Tracks move (liftM (Tree.spliceChild list link.declaration []))
      (liftM (Tree.spliceChild (list.map move) (link.declaration.map move) [])) tree image
      fun _ _ found found' => found' = found :=
    .edits fun mirrors => mirrors.editChild list link.declaration [] true
  exact places.bind fun _ _ _ _ same => Change.demand_tracks same _ _

end Link

namespace Temporary

variable {move : Nat → Nat} {tree image : Tree}

/-- Introducing temporaries for corresponding calls. -/
theorem introduce_tracks (name : String) (value next : Ref) :
    Change.Tracks move (introduce name value next)
      (introduce name (value.map move) (next.map move)) tree image
        fun _ _ made made' => made' = made.map move := by
  refine .given fun mirrors => .get_bind ?_
  refine (Change.require_tracks (mirrors.calledMember? next) _ _).bind
    fun _ _ called _ ⟨isCalled, _⟩ => ?_
  subst isCalled
  refine (Change.Tracks.lift (Build.ident_tracks name) fun _ _ _ _ _ => And.left).bind
    fun middle middleImage receiver _ isReceiver => ?_
  subst isReceiver
  have kinds : MirrorsKind move middle middleImage (.member receiver called.name called.conditional)
      (.member (receiver.map move) called.name called.conditional) := ⟨.cons rfl .nil, rfl⟩
  have sets : Change.Tracks move
      (liftM (Tree.setKind called.access (.member receiver called.name called.conditional)))
      (liftM (Tree.setKind (called.access.map move)
      (.member (receiver.map move) called.name called.conditional)))
      middle middleImage fun _ _ _ _ => True :=
    .edits fun mirrors => ⟨mirrors.setKind kinds called.access, trivial⟩
  refine sets.bind fun _ _ _ _ _ => ?_
  exact .lift (Build.localDecl_tracks "var" name value) fun _ _ _ _ _ => And.left

/-- Introducing temporaries for all of corresponding calls. -/
theorem introduceAll_tracks (names : List String) (calls : List Ref) :
    Change.Tracks move (introduceAll names calls)
      (introduceAll names (calls.map (Option.map move))) tree image
        fun _ _ made made' => made' = made.map (Option.map move) := by
  induction names, calls using introduceAll.induct generalizing tree image with
  | case1 name names call next calls ih =>
    rw [List.map_cons, List.map_cons, introduceAll, introduceAll]
    refine (introduce_tracks name call next).bind fun _ _ declaration _ isDeclaration => ?_
    subst isDeclaration
    refine ih.bind fun _ _ others _ isOthers => ?_
    subst isOthers
    exact .pure rfl
  | case2 names calls none =>
    rw [introduceAll.eq_2 _ _ none, introduceAll.eq_2]
    · exact .pure rfl
    · rintro name others call next later rfl same
      rcases calls with _ | ⟨first, _ | ⟨second, rest⟩⟩
      · cases same
      · cases same
      · exact none _ _ _ _ _ rfl rfl

end Temporary

namespace Context.Mirrors

variable {move : Nat → Nat} {context image : Context} (mirrors : context.Mirrors move image)
  {whole : Outline} (program : context.tree.IsProgram whole) {ref : Ref} (member : ref ∈ whole.refs)

include mirrors program

/-- Inlining temporaries at one place of corresponding lists is offered for both or for none. -/
theorem chainCallsAt {list : Ref} (covers : whole.Covers list) (place : Nat) :
    OffersAlike move (context.chainCallsAt list place)
      (image.chainCallsAt (list.map move) place) := by
  have links := mirrors.tree.linksAt mirrors.model program place fun statement inside =>
    program.covers_child covers inside
  rw [Context.chainCallsAt, Context.chainCallsAt]
  simp only [mirrors.tree.children, links]
  cases context.tree.linksAt context.model (context.tree.children list) place with
  | nil => exact refuse_alike _
  | cons link later =>
    simp only [List.map_cons, List.length_cons, List.length_map]
    refine offer_alike _ _ mirrors.tree ?_
    rw [← List.map_cons]
    have each {change : Link → Change PUnit} {change' : Link → Change PUnit} (links : List Link)
        (tracks : ∀ (link : Link) (middle middleImage : Tree), Change.Tracks move (change link)
          (change' (link.renumber move)) middle middleImage fun _ _ _ _ => True)
          (middle middleImage : Tree) :
        Change.Tracks move (links.forM change)
        ((links.map (Link.renumber move)).forM change') middle middleImage fun _ _ _ _ => True :=
      .forM (List.forall₂_map_right_iff.2 (List.forall₂_same.2 fun link _ => tracks link))
    exact (each _ (fun link _ _ => link.inline_tracks) _ _).bind fun _ _ _ _ _ =>
      each _ (fun link _ _ => link.remove_tracks list) _ _

include member

/-- Inlining temporaries around corresponding nodes is offered for both or for none. -/
theorem chainCalls :
    OffersAlike move (context.chainCalls ref) (image.chainCalls (ref.map move)) := by
  have isStatement := program.statementOf_mem member
  have place (items : List Ref) (ref : Ref) :
      (items.map (Option.map move)).idxOf? (ref.map move) = items.idxOf? ref := by
    rw [List.idxOf?, List.findIdx?_map, List.idxOf?]
    congr 1
    funext other
    exact mirrors.tree.map_beq other ref
  rw [Context.chainCalls, Context.chainCalls]
  simp only [mirrors.tree.statementOf (program.tops fun _ => member), mirrors.tree.parent,
    mirrors.tree.isStatementList, mirrors.tree.children, Option.isSome_map, place]
  split
  · split
    · rintro log result log' ⟨⟩
    · exact mirrors.chainCallsAt program (program.covers_parent fun _ => isStatement) _
  · exact none_alike

omit program member in
/-- Introducing temporaries for corresponding calls is offered for both or for none. -/
theorem introduceTemporaries {statement : Ref} (grounded : context.tree.Grounded statement)
    (calls : List Ref) :
    OffersAlike move (context.introduceTemporaries statement calls)
      (image.introduceTemporaries (statement.map move) (calls.map (Option.map move))) := by
  rw [Context.introduceTemporaries, Context.introduceTemporaries]
  simp only [(mirrors.namesAt grounded).pickMany, mirrors.settings, List.length_map]
  refine (Attempt.Tracks.same _).bind fun _ _ _ => offer_alike _ _ mirrors.tree ?_
  refine (Temporary.introduceAll_tracks _ calls).bind fun _ _ declarations _ isDeclarations => ?_
  subst isDeclarations
  exact Change.putBefore_tracks statement declarations

/-- Introducing temporaries around corresponding nodes is offered for both or for none. -/
theorem unchainCalls :
    OffersAlike move (context.unchainCalls ref) (image.unchainCalls (ref.map move)) := by
  have isStatement := program.statementOf_mem member
  have grounded := program.grounded fun _ => isStatement
  rw [Context.unchainCalls, Context.unchainCalls]
  simp only [mirrors.tree.statementOf (program.tops fun _ => member),
    mirrors.tree.canFollowTemporaries, mirrors.tree.callChain? grounded]
  split
  · cases found : context.tree.callChain? (context.tree.statementOf ref) with
    | none => exact none_alike
    | some calls =>
      have covers := program.covers_callChain isStatement found
      simp only [Option.map_some, ← List.map_reverse]
      rcases same : calls.reverse with _ | ⟨outermost, _ | ⟨last, others⟩⟩
      · exact none_alike
      · exact none_alike
      · have coversOutermost := covers outermost (List.mem_reverse.1 (by simp [same]))
        have coversLast := covers last (List.mem_reverse.1 (by simp [same]))
        simp only [List.map_cons, mirrors.tree.isEvaluatedFirst program coversOutermost,
          mirrors.tree.readsDeclarationOf mirrors.model program coversLast]
        split
        · exact refuse_alike _
        · split
          · exact refuse_alike _
          · exact mirrors.introduceTemporaries grounded calls
  · exact none_alike

/-- Every refactoring around corresponding nodes is offered for both or for none. -/
theorem attempt (refactoring : Refactoring) :
    OffersAlike move (context.attempt refactoring ref)
      (image.attempt refactoring (ref.map move)) := by
  cases refactoring with
  | mergeWhere => exact mirrors.merge program member Merging.filters_alike
  | splitWhere => exact mirrors.splitFilter program member
  | mergeSelect => exact mirrors.merge program member Merging.projections_alike
  | splitSelect => exact mirrors.splitProjection program member
  | invertQuantifier => exact mirrors.invertQuantifier program member
  | forToForEach => exact mirrors.forToForEach program member
  | forEachToFor => exact mirrors.forEachToFor program member
  | chainCalls => exact mirrors.chainCalls program member
  | unchainCalls => exact mirrors.unchainCalls program member

end Context.Mirrors

end Refactory
