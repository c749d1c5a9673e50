import Refactory.Proofs.Code.Mirror
import Refactory.Proofs.Tree.MirrorEdit

/-!
# Building code in mirrored trees

What is built of corresponding nodes corresponds, and the ways down from it end where they do from
the nodes that it is built of.
-/
namespace Refactory

open Refactory.Tree

variable {move : Nat → Nat} {tree image : Tree}

namespace Build

/-- Building a node of corresponding kinds. -/
theorem node_tracks {kind kind' : NodeKind} {given : Prop}
    (kinds : tree.Mirrors move image → MirrorsKind move tree image kind kind')
    (ones : given → ∀ child, .one child ∈ kind.slots → tree.Grounded child) (lists : given →
      ∀ range, .many range ∈ kind.slots → ∀ child ∈ tree.items range, tree.Grounded child) :
    Edit.Tracks move (node kind) (node kind') tree image (Twins move given) := by
  refine (alloc_tracks kinds .nowhere .nowhere).mono fun _ _ _ _ _ found =>
    ⟨found.1, fun holds => found.2 fun child member => ?_⟩
  obtain ⟨slot, inside, here⟩ := List.mem_flatMap.1 member
  cases slot with
  | one single =>
    cases single with
    | none => cases here
    | some number =>
      obtain rfl := List.mem_singleton.1 here
      exact ones holds _ inside
  | many range => exact lists holds range inside child here

/-- Building a node without lists. -/
theorem single_tracks {kind kind' : NodeKind} {given : Prop}
    (slots : List.Forall₂ (MirrorsSlot move tree image) kind.slots kind'.slots)
    (skeleton : kind'.skeleton = kind.skeleton)
    (ones : given → ∀ slot ∈ kind.slots, ∃ child, slot = .one child ∧ tree.Grounded child) :
    Edit.Tracks move (node kind) (node kind') tree image (Twins move given) := by
  refine node_tracks (fun _ => ⟨slots, skeleton⟩) (fun holds child inside => ?_)
    fun holds range inside => ?_
  · obtain ⟨_, same, grounded⟩ := ones holds _ inside
    exact Slot.one.inj same ▸ grounded
  · obtain ⟨_, same, -⟩ := ones holds _ inside
    cases same

theorem ident_tracks
    (name : String) : Edit.Tracks move (ident name) (ident name) tree image (Twins move True) :=
  single_tracks .nil rfl fun _ _ => nofun

theorem int_tracks
    (value : Int) : Edit.Tracks move (int value) (int value) tree image (Twins move True) :=
  single_tracks .nil rfl fun _ _ => nofun

theorem param_tracks
    (name : String) : Edit.Tracks move (param name) (param name) tree image (Twins move True) :=
  single_tracks (.cons rfl .nil) rfl (by simp [Kind.slots, Grounded])

theorem paren_tracks (inner : Ref) :
    Edit.Tracks move (paren inner) (paren (inner.map move)) tree image
      (Twins move (tree.Grounded inner)) :=
  single_tracks (.cons rfl .nil) rfl (by simp [Kind.slots])

theorem unary_tracks (op : UnaryOp) (operand : Ref) :
    Edit.Tracks move (unary op operand) (unary op (operand.map move)) tree image
      (Twins move (tree.Grounded operand)) :=
  single_tracks (.cons rfl .nil) rfl (by simp [Kind.slots])

theorem binary_tracks (op : BinaryOp) (left right : Ref) :
    Edit.Tracks move (binary op left right) (binary op (left.map move) (right.map move)) tree image
      (Twins move (tree.Grounded left ∧ tree.Grounded right)) :=
  single_tracks (.cons rfl (.cons rfl .nil)) rfl (by simp [Kind.slots])

theorem member_tracks (receiver : Ref) (name : String) (conditional : Bool) :
    Edit.Tracks move (member receiver name conditional)
      (member (receiver.map move) name conditional) tree image
        (Twins move (tree.Grounded receiver)) :=
  single_tracks (.cons rfl .nil) rfl (by simp [Kind.slots])

theorem argument_tracks (value : Ref) :
    Edit.Tracks move (argument value) (argument (value.map move)) tree image
      (Twins move (tree.Grounded value)) :=
  single_tracks (.cons rfl .nil) rfl (by simp [Kind.slots])

theorem index_tracks (receiver position : Ref) :
    Edit.Tracks move (index receiver position)
      (index (receiver.map move) (position.map move)) tree image
        (Twins move (tree.Grounded receiver ∧ tree.Grounded position)) := by
  refine (allocList_tracks [position]).bind fun after _ range range' grow ⟨⟨lists, items⟩, _⟩ => ?_
  refine node_tracks (fun _ => ⟨.cons rfl (.cons lists .nil), rfl⟩) ?_ ?_
  · simpa [Kind.slots] using fun holds _ => grow.grounded holds
  · simpa [Kind.slots, items] using fun _ holds => grow.grounded holds

theorem invoke_tracks (callee : Ref) (values : List Ref) :
    Edit.Tracks move (invoke callee values)
      (invoke (callee.map move) (values.map (Option.map move))) tree image
        (Twins move (tree.Grounded callee ∧ ∀ value ∈ values, tree.Grounded value)) := by
  have passed : Edit.Tracks move (values.mapM argument)
      ((values.map (Option.map move)).mapM argument) tree image
      fun after afterImage =>
        List.Forall₂ (Twins move (∀ value ∈ values, tree.Grounded value) after afterImage) := by
    refine .mapM (fun _ _ _ _ _ _ grow twins => twins.grow grow) ?_
    rw [List.forall₂_map_right_iff, List.forall₂_same]
    refine fun value member middle _ grow => (argument_tracks value).mono fun _ _ _ _ _ found =>
      ⟨found.1, fun holds => ?_⟩
    exact found.2 (grow.grounded (holds value member))
  refine passed.bind fun _ _ arguments _ grow found => ?_
  obtain ⟨rfl, below⟩ := Twins.list found
  refine (allocList_tracks arguments).bind fun _ _ range range' grow' ⟨⟨lists, items⟩, _⟩ => ?_
  refine node_tracks (fun _ => ⟨.cons rfl (.cons lists .nil), rfl⟩) ?_ ?_
  · simpa [Kind.slots] using fun holds _ => grow'.grounded (grow.grounded holds)
  · simpa [Kind.slots, items] using fun _ holds argument member =>
      grow'.grounded (below holds argument member)

theorem lambda_tracks (param body : Ref) (parenthesized : Bool) :
    Edit.Tracks move (lambda param body parenthesized)
      (lambda (param.map move) (body.map move) parenthesized) tree image
      (Twins move (tree.Grounded param ∧ tree.Grounded body)) := by
  refine (allocList_tracks [param]).bind fun after _ range range' grow ⟨⟨lists, items⟩, _⟩ => ?_
  refine node_tracks (fun _ => ⟨.cons lists (.cons rfl .nil), rfl⟩) ?_ ?_
  · simpa [Kind.slots] using fun _ holds => grow.grounded holds
  · simpa [Kind.slots, items] using fun holds _ => grow.grounded holds

theorem typeRef_tracks
    (name : String) : Edit.Tracks move (typeRef name) (typeRef name) tree image (Twins move True) :=
  node_tracks (fun _ => ⟨.cons SlotTwins.empty.1 .nil, rfl⟩) (by simp [Kind.slots])
    (by simp [Kind.slots, Tree.items, Range.empty])

theorem declarator_tracks (name : String) (value : Ref) :
    Edit.Tracks move (node (.declarator name value))
      (node (.declarator name (value.map move))) tree image (Twins move (tree.Grounded value)) :=
  single_tracks (.cons rfl .nil) rfl (by simp [Kind.slots])

theorem localDecl_tracks (type name : String) (value : Ref) :
    Edit.Tracks move (localDecl type name value) (localDecl type name (value.map move)) tree image
      (Twins move (tree.Grounded value)) := by
  refine (typeRef_tracks type).bind fun _ _ type _ grow ⟨isType, typeGrounded⟩ => ?_
  refine (declarator_tracks name value).bind fun _ _ declarator _ grow' ⟨isDeclarator, below⟩ => ?_
  subst isType isDeclarator
  refine (allocList_tracks [declarator]).bind fun _ _ range range' grow'' ⟨⟨lists, items⟩, _⟩ => ?_
  refine node_tracks (fun _ => ⟨.cons rfl (.cons lists .nil), rfl⟩) ?_ ?_
  · simpa [Kind.slots] using fun _ => grow''.grounded (grow'.grounded (typeGrounded trivial))
  · simpa [Kind.slots, items] using fun holds => grow''.grounded (below (grow.grounded holds))

theorem block_tracks (statements : List Ref) :
    Edit.Tracks move (block statements) (block (statements.map (Option.map move))) tree image
      (Twins move (∀ statement ∈ statements, tree.Grounded statement)) := by
  refine (allocList_tracks statements).bind fun after _ range range' grow ⟨⟨lists, items⟩, _⟩ => ?_
  refine node_tracks (fun _ => ⟨.cons lists .nil, rfl⟩) (by simp [Kind.slots]) ?_
  simpa [Kind.slots, items] using fun holds statement member =>
    grow.grounded (holds statement member)

theorem copyOfParam_tracks {param : Ref} (grounded : tree.Grounded param) :
    Edit.Tracks move (copyOfParam param) (copyOfParam (param.map move)) tree image
      (Twins move True) := by
  refine .given fun mirrors => .get_bind ?_
  have kinds := mirrors.exists_kind param
  have below : ∀ child, .one child ∈ (tree.kind param).slots → tree.Grounded child :=
    fun child => grounded.one
  obtain ⟨g, same, -⟩ := kinds
  rw [same]
  generalize tree.kind param = kind at below
  cases kind with
  | param type name =>
    cases type with
    | none => exact param_tracks name
    | some type =>
      refine (duplicate_tracks (below _ (.head _))).bind
        fun _ _ copy _ grow ⟨isCopy, copyGrounded⟩ => ?_
      subst isCopy
      exact single_tracks (.cons rfl .nil) rfl (by simpa [Kind.slots] using copyGrounded)
  | _ => exact .pure fun _ => ⟨rfl, fun _ => grounded⟩

end Build

namespace Tree

theorem Mirrors.isArgumentValue (mirrors : tree.Mirrors move image) (ref : Ref) :
    image.isArgumentValue (ref.map move) = tree.isArgumentValue ref := by
  rw [Tree.isArgumentValue, Tree.isArgumentValue, mirrors.parent]
  cases tree.parent ref with
  | none => rfl
  | some parent =>
    obtain ⟨g, same, -⟩ := mirrors.exists_kind (some parent)
    simp only [Option.map_some] at same ⊢
    rw [same]
    cases tree.kind (some parent) <;> rfl

variable {model imageModel : Model} (models : model.Mirrors move imageModel)

include models

/-- Renaming the references of corresponding referents. -/
theorem renameReferences_tracks (referent : Referent) (name : String) {ref : Ref}
    (grounded : tree.Grounded ref) :
    Edit.Tracks move (renameReferences model referent name ref)
      (renameReferences imageModel (referent.renumber move) name (ref.map move)) tree image
      (Twins move True) := by
  refine (fold_tracks ?_ grounded).bind fun _ _ _ _ _ ⟨_, found⟩ => .pure fun _ => found
  refine fun after afterImage count current grow _ => .get_bind ?_
  rw [grow.mirrors.isAt models]
  split
  · exact (Build.ident_tracks name).bind fun _ _ _ _ _ found => .pure fun _ => found
  · exact .pure fun _ => trivial

/-- Putting corresponding expressions in the place of the references of corresponding referents. -/
theorem substituteReferences_tracks (referent : Referent) {replacement ref : Ref}
    (groundedReplacement : tree.Grounded replacement) (grounded : tree.Grounded ref) :
    Edit.Tracks move (substituteReferences model referent replacement ref)
      (substituteReferences imageModel (referent.renumber move) (replacement.map move)
        (ref.map move)) tree image (Twins move True) := by
  refine (fold_tracks ?_ grounded).bind fun _ _ _ _ _ ⟨_, found⟩ => .pure fun _ => found
  refine fun after afterImage replaced current grow _ => .get_bind ?_
  rw [grow.mirrors.isAt models]
  have groundedReplacement := grow.grounded groundedReplacement
  split
  · have placed {middle middleImage : Tree}
        (grow' : GrowAlike move after afterImage middle middleImage) {value : Ref}
        (below : middle.Grounded value) : Edit.Tracks move
          (do
            let tree ← get
            if current = ref || tree.isArgumentValue current || tree.isPrimary value
              then return Verdict.become value
            else return .become (← Build.paren value))
          (do
            let tree ← get
            if current.map move = ref.map move || tree.isArgumentValue (current.map move) ||
                tree.isPrimary (value.map move) then return Verdict.become (value.map move)
            else return .become (← Build.paren (value.map move)))
          middle middleImage (VerdictTwins move) := by
      refine .get_bind ?_
      rw [grow'.mirrors.isArgumentValue, grow'.mirrors.isPrimary]
      simp only [grow.mirrors.map_inj]
      split
      · exact .pure fun _ => ⟨rfl, fun _ => below⟩
      · exact (Build.paren_tracks value).bind fun _ _ _ _ _ found => .pure fun _ =>
          ⟨found.1, fun _ => found.2 below⟩
    split
    · exact placed (.refl grow.mirrors) groundedReplacement
    · refine (duplicate_tracks groundedReplacement).bind
        fun middle middleImage value _ grow' ⟨isValue, below⟩ => ?_
      subst isValue
      exact placed grow' (below trivial)
  · exact .pure fun _ => trivial

/-- Naming the elements of corresponding collections, as many in both. -/
theorem nameElements_tracks (counter : SymbolId) (collection : Ref) (name : String) {ref : Ref}
    (grounded : tree.Grounded ref) :
    Edit.Tracks move (nameElements model counter collection name ref)
      (nameElements imageModel counter (collection.map move) name (ref.map move)) tree image
      fun after afterImage named named' => named'.2 = named.2 ∧
      Twins move True after afterImage named.1 named'.1 := by
  refine fold_tracks (fun after afterImage count current grow below => .get_bind ?_) grounded
  rw [grow.mirrors.isElementAt models counter current (grow.grounded below)]
  split
  · exact (Build.ident_tracks name).bind fun _ _ _ _ _ found => .pure fun _ => found
  · exact .pure fun _ => trivial

/-- Putting elements of corresponding collections in the place of a loop variable. -/
theorem indexElements_tracks (element : SymbolId) {collection : Ref} (counter : String) {ref : Ref}
    (groundedCollection : tree.Grounded collection) (grounded : tree.Grounded ref) :
    Edit.Tracks move (indexElements model element collection counter ref)
      (indexElements imageModel element (collection.map move) counter (ref.map move)) tree image
      (Twins move True) := by
  refine (fold_tracks ?_ grounded).bind fun _ _ _ _ _ ⟨_, found⟩ => .pure fun _ => found
  refine fun after afterImage count current grow _ => .get_bind ?_
  have same := grow.mirrors.isAt models (.symbol element) current
  rw [Referent.renumber] at same
  rw [same]
  split
  · refine (duplicate_tracks (grow.grounded groundedCollection)).bind ?_
    rintro _ _ receiver _ _ ⟨rfl, below⟩
    refine (Build.ident_tracks counter).bind ?_
    rintro _ _ position _ grow ⟨rfl, belowPosition⟩
    refine (Build.index_tracks receiver position).bind fun _ _ _ _ _ found => .pure fun _ =>
      ⟨found.1, fun _ => ?_⟩
    exact found.2 ⟨grow.grounded (below trivial), belowPosition trivial⟩
  · exact .pure fun _ => trivial

end Tree

/-- The parts of a simple lambda are below it. -/
theorem Tree.Grounded.simpleLambda {ref : Ref} {lambda : SimpleLambda}
    (grounded : tree.Grounded ref) (found : tree.simpleLambda? ref = some lambda) :
    tree.Grounded lambda.param ∧ tree.Grounded lambda.body := by
  rw [simpleLambda?] at found
  split at found
  · rename_i params body parenthesized kind
    split at found
    · rename_i param items
      split at found
      · split at found
        · cases found
        · obtain rfl := Option.some.inj found
          have inside : param ∈ tree.items params := by rw [items]; exact .head _
          exact ⟨grounded.item (by rw [kind]; exact .head _) inside, grounded.one
            (by rw [kind]; exact .tail _ (.head _))⟩
      · cases found
    · cases found
  · cases found

/-- What a call passes is below it. -/
theorem Tree.Grounded.singleArgument {call value : Ref} (grounded : tree.Grounded call)
    (found : tree.singleArgument? call = some value) : tree.Grounded value := by
  rw [singleArgument?] at found
  split at found
  · rename_i callee arguments kind
    split at found
    · rename_i argument items
      split at found
      · rename_i kindArgument
        obtain rfl := Option.some.inj found
        have inside : argument ∈ tree.items arguments := by rw [items]; exact .head _
        exact (grounded.item (by rw [kind]; exact .tail _ (.head _)) inside).one
          (by rw [kindArgument]; exact .head _)
      · cases found
    · cases found
  · cases found

/-- So is the member that it calls, and what this is called on. -/
theorem Tree.Grounded.calledMember {call : Ref} {called : CalledMember}
    (grounded : tree.Grounded call) (found : tree.calledMember? call = some called) :
    tree.Grounded called.access ∧ tree.Grounded called.receiver := by
  rw [calledMember?] at found
  split at found
  · rename_i callee arguments kind
    split at found
    · rename_i kindCallee
      obtain rfl := Option.some.inj found
      have below : tree.Grounded callee := grounded.one (by rw [kind]; exact .head _)
      exact ⟨below, below.one (by rw [kindCallee]; exact .head _)⟩
    · cases found
  · cases found

/-- A function corresponds to one of the image, and the ways down from its body end. -/
def FunctionTwins (move : Nat → Nat) (tree : Tree) (function function' : Abstraction) : Prop :=
  function' = function.renumber move ∧ tree.Grounded function.body

theorem FunctionTwins.grow {after afterImage : Tree} {function function' : Abstraction}
    (twins : FunctionTwins move tree function function')
    (grow : GrowAlike move tree image after afterImage) :
    FunctionTwins move after function function' := ⟨twins.1, grow.grounded twins.2⟩

/-- Tests of functions give the same for corresponding functions. -/
def CallRun.AcceptAlike (move : Nat → Nat) (accepts accepts' : CallRun.Acceptance) : Prop :=
  ∀ tree image function function' place, tree.Mirrors move image →
    FunctionTwins move tree function function' →
    accepts' image function' place = accepts tree function place

namespace CallRun

/-- A run corresponds to one of the image, and the ways down from its parts end. -/
structure Twins (move : Nat → Nat) (tree : Tree) (run run' : CallRun) : Prop where
  /-- The outermost calls correspond. -/
  outer : run'.outer = run.outer.map move
  /-- So do the member accesses. -/
  anchor : run'.anchor = run.anchor.map move
  /-- The ways down from the member access end. -/
  grounded : tree.Grounded run.anchor
  /-- The first functions correspond. -/
  first : FunctionTwins move tree run.first run'.first
  /-- So do the others. -/
  others : List.Forall₂ (FunctionTwins move tree) run.others run'.others

/-- The calls of a run are below its outermost call. -/
theorem grounded_callsDownWithin {method : String} {bound : Nat} {call : Ref}
    (grounded : tree.Grounded call) :
    ∀ found ∈ tree.callsDownWithin method bound call, tree.Grounded found.1 ∧
    tree.Grounded found.2.access := by
  induction bound generalizing call with
  | zero => exact nofun
  | succ bound ih =>
    rw [callsDownWithin]
    split
    · split
      · rename_i called isCalled
        obtain ⟨access, receiver⟩ := grounded.calledMember isCalled
        exact List.forall_mem_cons.2 ⟨⟨grounded, access⟩, ih receiver⟩
      · exact List.forall_mem_nil _
    · exact List.forall_mem_nil _

/-- Looking for the functions of a run in a program touches nothing. -/
theorem functionsOf?_frame {model : Model} {placeholder method : String} {accepts : Acceptance}
    {whole : Outline}
    (program : tree.IsProgram whole) {call : Ref} (member : call ∈ whole.refs) : Frame [] [] tree
      (functionsOf? model placeholder accepts 0
        ((tree.runCalls method call).map (·.1)) tree).2 := by
  cases isFirst : (tree.runCalls method call).head? with
  | none =>
    rw [List.head?_eq_none_iff.1 isFirst]
    exact .refl tree
  | some first =>
    obtain ⟨call, isPart, rfl⟩ := Term.mem_refs.1 member
    obtain ⟨outer, anchor, values, -, -, -, -, passes, all, -⟩ :=
      exists_of_runCalls program isPart isFirst
    obtain ⟨_, _, came, frame, -⟩ :=
      @functionsOf?_finds model placeholder accepts 0 _ _ _ passes program.stored
        (StandsAll.cons_iff.1 all).2.1
    exact came ▸ frame

end CallRun

section

variable {model imageModel : Model} (models : model.Mirrors move imageModel) (placeholder : String)

include models

/-- Corresponding expressions denote corresponding functions. -/
theorem Abstraction.of?_tracks {value : Ref} (grounded : tree.Grounded value) :
    Edit.Tracks move (of? model placeholder value)
      (of? imageModel placeholder (value.map move)) tree image
        fun after _ => Option.Rel (FunctionTwins move after) := by
  refine .given fun mirrors => .get_bind ?_
  rw [mirrors.simpleLambda?, mirrors.isStablePath grounded]
  cases found : tree.simpleLambda? value with
  | some lambda =>
    simp only [Option.map_some, SimpleLambda.renumber, models.declaredSymbol]
    refine .pure fun _ => ?_
    cases model.declaredSymbol lambda.param with
    | none => exact .none
    | some symbol => exact .some ⟨rfl, (grounded.simpleLambda found).2⟩
  | none =>
    simp only [Option.map_none]
    split
    · refine (duplicate_tracks grounded).bind fun _ _ path _ _ ⟨isPath, below⟩ => ?_
      refine (Build.ident_tracks placeholder).bind
        fun _ _ reference _ grow ⟨isReference, belowReference⟩ => ?_
      subst isPath isReference
      refine (Build.invoke_tracks path [reference]).bind fun _ _ body _ _ ⟨isBody, belowBody⟩ =>
        .pure fun _ => ?_
      subst isBody
      exact .some
        ⟨rfl, belowBody ⟨grow.grounded (below trivial), by simpa using belowReference trivial⟩⟩
    · exact .pure fun _ => .none

/-- Corresponding calls pass corresponding functions. -/
theorem CallRun.functionsOf?_tracks {accepts accepts' : CallRun.Acceptance}
    (alike : AcceptAlike move accepts accepts')
    (place : Nat) {calls : List Ref} (grounded : ∀ call ∈ calls, tree.Grounded call) :
    Edit.Tracks move (functionsOf? model placeholder accepts place calls)
      (functionsOf? imageModel placeholder accepts' place (calls.map (Option.map move))) tree image
      fun after _ => Option.Rel (List.Forall₂ (FunctionTwins move after)) := by
  induction calls generalizing place tree image with
  | nil => exact .pure fun _ => .some .nil
  | cons call calls ih =>
    rw [List.map_cons, functionsOf?, functionsOf?]
    refine .given fun mirrors => .get_bind ?_
    rw [mirrors.singleArgument?]
    cases found : tree.singleArgument? call with
    | none => exact .pure fun _ => .none
    | some value =>
      simp only [Option.map_some]
      have passed := (grounded call (.head _)).singleArgument found
      refine (Abstraction.of?_tracks models placeholder passed).bind
        fun middle middleImage _ _ grow denoted => ?_
      cases denoted with
      | none => exact .pure fun _ => .none
      | @some function function' twins =>
        refine .given fun mirrors => .get_bind ?_
        rw [alike middle middleImage function function' place mirrors twins]
        split
        · refine (ih (place + 1) fun other member => grow.grounded
            (grounded other (.tail _ member))).bind fun _ _ _ _ grow' others => .pure fun _ => ?_
          cases others with
          | none => exact .none
          | some others => exact .some (.cons (twins.grow grow') others)
        · exact .pure fun _ => .none

namespace CallRun

/-- Searches for runs among corresponding candidates come to the same. -/
theorem searchAmong_tracks {method : String} {accepts accepts' : Acceptance}
    (alike : AcceptAlike move accepts accepts') {whole : Outline} (program : tree.IsProgram whole)
    {seen candidates : List Ref} (within : candidates ⊆ whole.refs) :
    Edit.Tracks move (searchAmong model placeholder method accepts seen candidates)
      (searchAmong imageModel placeholder method accepts' (seen.map (Option.map move))
      (candidates.map (Option.map move)))
      tree image fun after _ search search' => search'.rejected = search.rejected ∧
        Option.Rel (Twins move after) search.found search'.found := by
  induction candidates generalizing seen tree image with
  | nil => exact .pure fun _ => ⟨rfl, .none⟩
  | cons candidate candidates ih =>
    obtain ⟨member, within⟩ := List.cons_subset.1 within
    rw [List.map_cons, searchAmong, searchAmong]
    refine .given fun mirrors => .get_bind ?_
    rw [mirrors.map_contains, mirrors.isOnCallOf]
    split
    · exact ih program within
    · have grounded : tree.Grounded (tree.outermostCall method candidate) :=
        program.grounded fun _ => by
          obtain ⟨call, isPart, rfl⟩ := Term.mem_refs.1 member
          obtain ⟨outer, isOuter, same, -⟩ :=
            @IsProgram.ascends_outermostCall tree whole call method program isPart
          exact Term.mem_refs.2 ⟨outer, isOuter, same⟩
      have calls := mirrors.runCalls method (program.tops fun _ => member) grounded
      have refs : (image.runCalls method (candidate.map move)).map (·.1)
          = ((tree.runCalls method candidate).map (·.1)).map (Option.map move) := by
        simp only [calls, List.map_map, Function.comp_def, Prod.map_fst]
      have below : ∀ found ∈ tree.runCalls method candidate, tree.Grounded found.1 ∧
          tree.Grounded found.2.access :=
        fun found isFound => grounded_callsDownWithin grounded found (List.mem_reverse.1 isFound)
      have belowRefs : ∀ call ∈ (tree.runCalls method candidate).map (·.1), tree.Grounded call := by
        simpa using fun call called isFound => (below (call, called) isFound).1
      have functions : Edit.Tracks move
          (functionsOf? model placeholder accepts 0 ((tree.runCalls method candidate).map (·.1)))
          (functionsOf? imageModel placeholder accepts' 0
          ((image.runCalls method (candidate.map move)).map (·.1)))
          tree image fun after _ found found' => Option.Rel
          (List.Forall₂ (FunctionTwins move after)) found found' ∧ Frame [] [] tree after :=
        refs ▸ (functionsOf?_tracks models placeholder alike 0 belowRefs).also
        (fun after _ => Frame [] [] tree after) (functionsOf?_frame program member)
      refine functions.bind fun middle middleImage _ _ grow found => ?_
      obtain ⟨twins, frame⟩ := found
      have goesOn : Edit.Tracks move
          (do
            let search ← searchAmong model placeholder method accepts
              ((tree.runCalls method candidate).map (·.1) ++ seen) candidates
            return { search with
              rejected := (tree.runCalls method candidate).length :: search.rejected })
          (do
            let search ← searchAmong imageModel placeholder method accepts'
              ((image.runCalls method (candidate.map move)).map (·.1) ++ seen.map (Option.map move))
              (candidates.map (Option.map move))
            return { search with
              rejected := (image.runCalls method (candidate.map move)).length :: search.rejected })
          middle middleImage fun after _ search search' => search'.rejected = search.rejected ∧
            Option.Rel (Twins move after) search.found search'.found := by
        rw [refs, ← List.map_append, calls, List.length_map]
        exact (ih (program.of_frame frame) within).bind fun _ _ search search' _ posted =>
          .pure fun _ => ⟨congrArg (List.cons _) posted.1, posted.2⟩
      have outermost := mirrors.outermostCall method (program.tops fun _ => member)
      cases isFirst : (tree.runCalls method candidate).head? with
      | none =>
        have isFirst' : (image.runCalls method (candidate.map move)).head? = none := by
          rw [calls, List.head?_map, isFirst]
          rfl
        rw [isFirst']
        exact goesOn
      | some first =>
        have isFirst' : (image.runCalls method (candidate.map move)).head?
            = some (first.1.map move, first.2.renumber move) := by
          rw [calls, List.head?_map, isFirst]
          rfl
        rw [isFirst']
        cases twins with
        | none => exact goesOn
        | some all =>
          cases all with
          | nil => exact goesOn
          | cons here others =>
            have groundedAnchor := (below first (List.mem_of_mem_head? isFirst)).2
            exact .pure fun _ =>
              ⟨rfl, .some ⟨outermost, rfl, grow.grounded groundedAnchor, here, others⟩⟩

/-- Searches for runs in corresponding nodes come to the same. -/
theorem search_tracks {method : String} {accepts accepts' : Acceptance}
    (alike : AcceptAlike move accepts accepts') {whole : Outline} (program : tree.IsProgram whole)
    {container : Ref} (member : container ∈ whole.refs) :
    Edit.Tracks move (search model placeholder method container accepts)
      (search imageModel placeholder method (container.map move) accepts') tree image
      fun after _ search search' => search'.rejected = search.rejected ∧
        Option.Rel (Twins move after) search.found search'.found := by
  refine .given fun mirrors => .get_bind ?_
  rw [mirrors.callsOf method (program.grounded fun _ => member)]
  refine searchAmong_tracks models placeholder alike program fun call isCall => ?_
  exact program.descendants_subset member (List.mem_of_mem_filter isCall)

end CallRun

end

namespace Abstraction

variable {model imageModel : Model} (models : model.Mirrors move imageModel) (name : String)

include models

theorem operand_tracks {predicate predicate' : Abstraction}
    (twins : FunctionTwins move tree predicate predicate') :
    Edit.Tracks move (predicate.operand model name) (predicate'.operand imageModel name) tree image
      (Tree.Twins move True) := by
  obtain ⟨rfl, grounded⟩ := twins
  refine (renameReferences_tracks models predicate.referent name grounded).bind
    fun _ _ body _ _ ⟨isBody, below⟩ => ?_
  subst isBody
  refine .given fun mirrors => .get_bind ?_
  rw [mirrors.isAtomic]
  split
  · exact .pure fun _ => ⟨rfl, below⟩
  · exact (Build.paren_tracks body).mono fun _ _ _ _ _ found =>
      ⟨found.1, fun _ => found.2 (below trivial)⟩

theorem conjoinOnto_tracks {conjunction : Ref} (grounded : tree.Grounded conjunction)
    {predicates predicates' : List Abstraction}
    (twins : List.Forall₂ (FunctionTwins move tree) predicates predicates') :
    Edit.Tracks move (conjoinOnto model name conjunction predicates)
      (conjoinOnto imageModel name (conjunction.map move) predicates') tree image
      (Tree.Twins move True) := by
  induction predicates generalizing predicates' conjunction tree image with
  | nil =>
    obtain rfl := List.forall₂_nil_left_iff.1 twins
    exact .pure fun _ => ⟨rfl, fun _ => grounded⟩
  | cons predicate predicates ih =>
    obtain ⟨predicate', predicates', here, others, rfl⟩ := List.forall₂_cons_left_iff.1 twins
    rw [conjoinOnto, conjoinOnto]
    refine (operand_tracks models name here).bind fun _ _ operand _ grow twin => ?_
    obtain ⟨rfl, below⟩ := twin
    refine (Build.binary_tracks .and conjunction operand).bind fun _ _ joined _ grow' twin => ?_
    obtain ⟨rfl, belowJoined⟩ := twin
    exact ih (belowJoined ⟨grow.grounded grounded, below trivial⟩)
      (others.imp fun _ _ twins => twins.grow (grow.trans grow'))

/-- Corresponding predicates have corresponding conjunctions. -/
theorem conjoin_tracks {first first' : Abstraction} {others others' : List Abstraction}
    (twins : FunctionTwins move tree first first')
    (twinsOthers : List.Forall₂ (FunctionTwins move tree) others others') :
    Edit.Tracks move (conjoin model name first others)
    (conjoin imageModel name first' others') tree image (Tree.Twins move True) := by
  refine (operand_tracks models name twins).bind fun _ _ operand _ grow twin => ?_
  obtain ⟨rfl, below⟩ := twin
  exact conjoinOnto_tracks models name (below trivial)
    (twinsOthers.imp fun _ _ twins => twins.grow grow)

theorem composeOnto_tracks {composed : Ref} (grounded : tree.Grounded composed)
    {functions functions' : List Abstraction}
    (twins : List.Forall₂ (FunctionTwins move tree) functions functions') :
    Edit.Tracks move (composeOnto model composed functions)
      (composeOnto imageModel (composed.map move) functions') tree image
      (Tree.Twins move True) := by
  induction functions generalizing functions' composed tree image with
  | nil =>
    obtain rfl := List.forall₂_nil_left_iff.1 twins
    exact .pure fun _ => ⟨rfl, fun _ => grounded⟩
  | cons function functions ih =>
    obtain ⟨function', functions', ⟨rfl, here⟩, others, rfl⟩ := List.forall₂_cons_left_iff.1 twins
    rw [composeOnto, composeOnto]
    refine (substituteReferences_tracks models function.referent grounded here).bind
      fun _ _ composed _ grow twin => ?_
    obtain ⟨rfl, below⟩ := twin
    exact ih (below trivial) (others.imp fun _ _ twins => twins.grow grow)

/-- Corresponding functions have corresponding compositions. -/
theorem compose_tracks {first first' : Abstraction} {others others' : List Abstraction}
    (twins : FunctionTwins move tree first first')
    (twinsOthers : List.Forall₂ (FunctionTwins move tree) others others') :
    Edit.Tracks move (compose model name first others)
    (compose imageModel name first' others') tree image (Tree.Twins move True) := by
  obtain ⟨rfl, grounded⟩ := twins
  refine (renameReferences_tracks models first.referent name grounded).bind
    fun _ _ body _ grow twin => ?_
  obtain ⟨rfl, below⟩ := twin
  exact composeOnto_tracks models (below trivial) (twinsOthers.imp fun _ _ twins => twins.grow grow)

end Abstraction

end Refactory
