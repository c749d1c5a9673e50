import Refactory.Proofs.Code.MirrorBuild
import Refactory.Proofs.Tree.Compact
import Refactory.Proofs.Tree.Growth

/-!
# Functions that were found alike

The function of a path to a function has a parameter that is made up, and its name is a setting. Two
searches with different settings find functions of the same expressions, and whatever merging asks
of these is answered alike (`Abstraction.Alike`): which names a function captures, whether it can be
composed, and what its body is with an expression in the place of the parameter.
-/
namespace Refactory

/-- Whether a node would be mistaken for a parameter of a name, if it is not a reference to the
parameter. -/
def Kind.captures {one many : Type} (name : String) (isReference : Bool) : Kind one many → Bool
  | .ident used => used == name && !isReference
  | .param _ declared => declared == name
  | _ => false

theorem Kind.captures_skeleton {one many : Type} (name : String) (isReference : Bool)
    (kind : Kind one many) :
    kind.skeleton.captures name isReference = kind.captures name isReference := by
  cases kind <;> rfl

/-- Calls. -/
def Kind.isCall {one many : Type} : Kind one many → Bool
  | .invoke _ _ => true
  | _ => false

theorem Kind.isCall_of_skeleton {one many one' many' : Type} {kind : Kind one many}
    {other : Kind one' many'}
    (same : kind.skeleton = other.skeleton) : kind.isCall = other.isCall :=
  eq_of_skeleton (fun kind => kind.isCall) (fun kind => by cases kind <;> rfl) same

/-- A test of the items of a list comes to what another one does that agrees with it on each of
them. -/
theorem any_eq_of_mem {α : Type} {items : List α} {test test' : α → Bool}
    (same : ∀ item ∈ items, test' item = test item) :
    items.any test' = items.any test := by
  rw [Bool.eq_iff_iff, List.any_eq_true, List.any_eq_true]
  exact exists_congr fun item => and_congr_right fun member => by rw [same item member]

namespace Term

variable {α : Type}

/-- Whether a name is used or declared in a term. -/
def bears (name : String) (term : Term α) : Bool := term.subterms.any (·.kind.captures name false)

/-- Which names a term uses or declares is a matter of its shape. -/
theorem bears_shape (name : String) (term : Term α) : term.shape.bears name = term.bears name := by
  rw [bears, bears, shape, subterms_map, List.any_map]
  refine any_eq_of_mem fun part _ => ?_
  rw [Function.comp_apply, ← shape, ← Kind.captures_skeleton, skeleton_shape,
    Kind.captures_skeleton]

/-- A term in which nothing passes the test keeps its shape. -/
theorem shapePutting_eq_shape {test : Ref → Bool} {put : Outline → Shape} {term : Outline}
    (misses : ∀ part ∈ term.subterms, test part.ref = false) :
    term.shapePutting test put = term.shape := by
  induction term using Term.induction with
  | step place form ih =>
    have miss := misses _ (self_mem_subterms (.node place form))
    rw [ref_node] at miss
    rw [shapePutting_node, if_neg (Bool.eq_false_iff.1 miss), shape_node, mapForm_eq]
    exact congrArg _ (mapChildren_congr fun child held =>
      ih child held fun part inside => misses part (mem_subterms_of_child held inside))

end Term

namespace Abstraction

open Term Refactory.Tree

variable {model : Model} {tree other : Tree} {name placeholder : String} {function : Abstraction}
  {body : Option Outline}

/-- Whether a function captures a name is read off the kinds of the nodes in its body. -/
theorem captures_eq (function : Abstraction) (tree : Tree) (model : Model) (name : String) :
    function.captures tree model name = (tree.descendants function.body).any fun ref =>
    (tree.kind ref).captures name (function.referent.isAt tree model ref) := by
  rw [captures]
  refine any_eq_of_mem fun ref _ => ?_
  cases tree.kind ref <;> rfl

/-- What a function captures is captured by a part of its body. -/
theorem HasBody.captures_eq (hasBody : function.HasBody body) (all : tree.StandsAll body.toList) :
    function.captures tree model name = body.any fun body => body.subterms.any fun part =>
      part.kind.captures name (function.referent.isAt tree model part.ref) := by
  rw [Abstraction.captures_eq, hasBody.1]
  cases body with
  | none => rfl
  | some body =>
    have stands := all.each body (.head _)
    rw [refOf_some, stands.descendants, Option.any_some, refs, List.any_map]
    refine any_eq_of_mem fun part inside => ?_
    rw [Function.comp_apply, ← Kind.captures_skeleton, (stands.shows inside).depicts.skeleton,
      Kind.captures_skeleton]

/-- A function captures the same in every tree where its body stands. -/
theorem HasBody.captures_eq_of_stands (hasBody : function.HasBody body)
    (all : tree.StandsAll body.toList) (allOther : other.StandsAll body.toList) :
    function.captures other model name = function.captures tree model name := by
  rw [hasBody.captures_eq all, hasBody.captures_eq allOther]
  cases body with
  | none => rfl
  | some body =>
    refine any_eq_of_mem fun part inside => ?_
    rw [((all.each body (.head _)).shows inside).isAt_eq
      ((allOther.each body (.head _)).shows inside)]

/-- A node that two trees show alike is a call in both or in none. -/
theorem isCall_eq {term : Outline} (shows : tree.Shows term) (showsOther : other.Shows term) :
    isCall other term.ref = isCall tree term.ref := by
  have isCall_eq_kind (tree : Tree) : isCall tree term.ref = (tree.kind term.ref).isCall := by
    rw [isCall]
    cases tree.kind term.ref <;> rfl
  rw [isCall_eq_kind, isCall_eq_kind,
    Kind.isCall_of_skeleton (showsOther.depicts.skeleton.trans shows.depicts.skeleton.symm)]

/-- A function can be composed in every tree where its body stands or in none. -/
theorem HasBody.isComposable_eq_of_stands (hasBody : function.HasBody body)
    (all : tree.StandsAll body.toList)
    (allOther : other.StandsAll body.toList) (place : Nat) :
    function.isComposable other model place = function.isComposable tree model place := by
  have calls : isCall other (other.stripParens function.body)
      = isCall tree (tree.stripParens function.body) := by
    rw [hasBody.1, stripParens_eq all, stripParens_eq allOther]
    cases isBare : bareOf body with
    | none => rfl
    | some inner =>
      obtain ⟨body, rfl, inside⟩ := exists_of_bareOf isBare
      exact isCall_eq ((all.each body (.head _)).shows inside)
        ((allOther.each body (.head _)).shows inside)
  have references : function.referent.references other model function.body
      = function.referent.references tree model function.body := by
    rw [Referent.references, Referent.references, hasBody.1]
    cases body with
    | none => rfl
    | some body =>
      rw [refOf_some, (all.each body (.head _)).descendants,
        (allOther.each body (.head _)).descendants]
      refine List.filter_congr fun ref member => ?_
      obtain ⟨part, inside, rfl⟩ := mem_refs.1 member
      exact ((all.each body (.head _)).shows inside).isAt_eq
        ((allOther.each body (.head _)).shows inside) _ model
  rw [isComposable, isComposable, calls, references]

/-! ### Functions that are named -/

section

variable {call path reference : Outline} (isCall : IsCallOn path reference call)
  (isName : reference.kind = .ident placeholder) (stands : tree.Stands call)

include isCall stands

/-- The reference to the parameter of a named function is nowhere else in its body, where it is the
value of the argument. -/
theorem misses_of_isCallOn :
    call.ref ≠ reference.ref ∧ (∀ part ∈ path.subterms, part.ref ≠ reference.ref) ∧
    ∃ place argument, call =
    .node place (.invoke (some path) [.node argument (.argument .plain (some reference))]) ∧
      argument.ref ≠ reference.ref ∧ tree.isArgumentValue reference.ref = true := by
  obtain ⟨place, argument, rfl⟩ := isCall
  set passed : Outline := .node argument (.argument .plain (some reference))
  have heldPassed : passed ∈ (node place (.invoke (some path) [passed]) : Outline).children := by
    simp [Term.children, Term.kind, parts]
  have heldReference : reference ∈ passed.children := by
    simp [passed, Term.children, Term.kind, parts]
  have standsPassed := stands.subterm (child_mem_subterms heldPassed)
  have apart :=
    (StandsAll.cons_iff.1 (@Stands.calleeAndValue tree _ _ passed _ stands rfl rfl).1).2.2
  refine ⟨ref_ne_of_child stands.once heldPassed (child_mem_subterms heldReference),
    fun part inside same => ?_,
    place, argument, rfl, ref_ne_of_child standsPassed.once heldReference (self_mem_subterms _), ?_⟩
  · exact apart (mem_refs.2 ⟨part, inside, rfl⟩) (by simp [same, ref_mem_refs])
  · exact standsPassed.isArgumentValue (self_mem_subterms passed) rfl

/-- The reference is something that can be referred to. -/
theorem hasBody_named :
    HasBody ⟨placeholder, .synthesized reference.ref, call.ref⟩ (some call) := by
  obtain ⟨-, -, place, argument, rfl, -, -⟩ := misses_of_isCallOn isCall stands
  have within : reference ∈
      (node place (.invoke (some path) [.node argument (.argument .plain (some reference))])
      : Outline).subterms := by simp [subterms_node, parts, self_mem_subterms]
  exact ⟨rfl, by simpa using (stands.shows within).hasRef.ne_none⟩

/-- A named function captures the names in its path. -/
theorem captures_named (isName : reference.kind = .ident placeholder) :
    captures ⟨placeholder, .synthesized reference.ref, call.ref⟩ tree model name =
    path.bears name := by
  rw [(hasBody_named isCall stands).captures_eq (StandsAll.singleton_iff.2 stands), Option.any_some]
  obtain ⟨-, outside, place, argument, rfl, -, -⟩ := misses_of_isCallOn isCall stands
  rcases reference with ⟨here, form⟩
  obtain rfl : form = _ := isName
  have inPath : (path.subterms.any fun part => part.kind.captures name (part.ref == here.ref))
      = path.bears name := any_eq_of_mem fun part inside => by
    rw [beq_eq_false_iff_ne.2 (show part.ref ≠ here.ref from outside part inside)]
  simpa [subterms_node, parts, Kind.captures, Term.kind, Referent.isAt] using inPath

/-- A named function can be composed at every place. -/
theorem isComposable_named (isName : reference.kind = .ident placeholder) (place : Nat) :
    isComposable ⟨placeholder, .synthesized reference.ref, call.ref⟩ tree model place = true := by
  obtain ⟨notCall, outside, here, argument, rfl, notArgument, -⟩ := misses_of_isCallOn isCall stands
  rcases reference with ⟨there, form⟩
  obtain rfl : form = _ := isName
  obtain ⟨range, isInvoke, -⟩ := stands.shown.here.depicts.of_invoke
  have inPath : (path.refs.filter fun ref => ref == there.ref) = [] :=
    List.filter_eq_nil_iff.2 fun ref member => by
    obtain ⟨part, inside, rfl⟩ := mem_refs.1 member
    simpa using outside part inside
  have references : ((Referent.synthesized there.ref).references tree model here.ref).length
      = 1 := by
    have descends : tree.descendants here.ref = _ := stands.descendants
    have single : ((here.ref :: (path.refs ++ [argument.ref, there.ref])).filter fun ref =>
        ref == there.ref) = [there.ref] := by
      rw [List.filter_cons_of_neg (by simpa using notCall), List.filter_append, inPath,
        List.nil_append, List.filter_cons_of_neg (by simpa using notArgument)]
      simp
    have isAt : (Referent.synthesized there.ref).isAt tree model = fun ref => ref == there.ref :=
      rfl
    rw [Referent.references, descends, isAt]
    simpa [parts] using congrArg List.length single
  have strips : tree.stripParens here.ref = here.ref :=
    stands.shown.here.stripParens_of_kind (by simp [Term.kind, shape_node])
  simp only [isComposable, ref_node, strips, Abstraction.isCall,
    show tree.kind here.ref = _ from isInvoke, references]
  simp

/-- The body of a named function with an expression in the place of the parameter is a call that
passes it. -/
theorem filling_named (isName : reference.kind = .ident placeholder) (value : Shape) :
    filling (.synthesized reference.ref) tree model value call
      = .node () (.invoke (some path.shape) [.node () (.argument .plain (some value))]) := by
  obtain ⟨notCall, outside, here, argument, rfl, notArgument, isValue⟩ :=
    misses_of_isCallOn isCall stands
  have inPath (put : Outline → Shape) :
      path.shapePutting (Referent.isAt (.synthesized reference.ref) tree model) put = path.shape :=
    shapePutting_eq_shape fun part inside => beq_eq_false_iff_ne.2 (outside part inside)
  rcases reference with ⟨there, form⟩
  simp only [ref_node] at notCall notArgument isValue inPath
  have passed
      (put : Outline → Shape) : shapePutting (Referent.isAt (.synthesized there.ref) tree model) put
      (.node argument (.argument .plain (some (.node there form)))) = .node ()
      (.argument .plain (some (put (.node there form)))) := by
    rw [shapePutting_node, if_neg (by simpa [Referent.isAt] using notArgument)]
    simp [mapChildren, shapePutting_node, Referent.isAt]
  rw [filling, shapePutting_node, if_neg (by simpa [Referent.isAt] using notCall)]
  simp only [mapChildren, Kind.slots, Kind.withSlots, List.map_cons, List.map_nil, Option.map_some]
  simpa using ⟨inPath _, (passed _).trans (by simp [isValue])⟩

end

/-! ### Functions that are alike -/

/-- Functions that two searches found for one expression: that of a lambda is the same, and those of
a path pass parameters, whatever these are called, to copies of it. -/
inductive Alike (left right : Tree) : Abstraction → Abstraction → Prop
  /-- The function of a lambda. -/
  | written {function : Abstraction} {body : Option Outline}
      (isWritten : function.referent.isSynthesized = false)
      (hasBody : HasBody function body) (stands : left.StandsAll body.toList)
      (standsRight : right.StandsAll body.toList) :
      Alike left right function function
  /-- The functions that a path names. -/
  | named {placeholder placeholder' : String} {path path' reference reference' call call' : Outline}
      (isName : reference.kind = .ident placeholder)
      (isName' : reference'.kind = .ident placeholder')
      (isCall : IsCallOn path reference call) (isCall' : IsCallOn path' reference' call')
      (stands : left.Stands call) (standsRight : right.Stands call')
      (same : path'.shape = path.shape) :
      Alike left right ⟨placeholder, .synthesized reference.ref, call.ref⟩
        ⟨placeholder', .synthesized reference'.ref, call'.ref⟩

/-- Functions that one expression denotes in two trees are alike. -/
theorem Denotes.alike {placeholder' : String} {left right : Tree} {value : Outline}
    {function' : Abstraction}
    {body' : Option Outline} (denotes : Denotes model placeholder value function body)
    (denotes' : Denotes model placeholder' value function' body') (hasBody : HasBody function body)
    (stands : left.StandsAll body.toList) (standsRight : right.StandsAll body'.toList) :
    Alike left right function function' := by
  cases denotes with
  | written isLambda form isParam declares =>
    cases denotes' with
    | written isLambda' form' isParam' declares' =>
      obtain ⟨params, rfl, -⟩ := Kind.lambda.inj (form.symm.trans form')
      obtain rfl := (List.cons.inj params).1
      have sameName := (Kind.param.inj (isParam.symm.trans isParam')).2
      obtain rfl := Option.some.inj (declares.symm.trans declares')
      rw [sameName] at hasBody ⊢
      exact .written rfl hasBody stands standsRight
    | named isPath => exact absurd form (isPath.kind_ne_lambda _ _ _)
  | named isPath copies isName isCall =>
    cases denotes' with
    | written _ form => exact absurd form (isPath.kind_ne_lambda _ _ _)
    | named _ copies' isName' isCall' =>
      exact .named isName isName' isCall isCall' (stands.each _ (.head _))
        (standsRight.each _ (.head _)) (copies'.trans copies.symm)

namespace Alike

variable {left right : Tree} {function function' : Abstraction}

/-- They stay alike when nodes are added. -/
theorem of_frames {left' right' : Tree} (alike : Alike left right function function')
    (frame : Frame [] [] left left')
    (frameRight : Frame [] [] right right') : Alike left' right' function function' := by
  cases alike with
  | written isWritten hasBody stands standsRight =>
    exact .written isWritten hasBody (stands.of_frame frame) (standsRight.of_frame frameRight)
  | named isName isName' isCall isCall' stands standsRight same =>
    exact .named isName isName' isCall isCall' (stands.of_growth frame)
      (standsRight.of_growth frameRight) same

/-- They are written as lambdas both or neither. -/
theorem isSynthesized_eq (alike : Alike left right function function') :
    function'.referent.isSynthesized = function.referent.isSynthesized := by
  cases alike <;> rfl

/-- Functions that are written have one parameter. -/
theorem eq_of_isWritten (alike : Alike left right function function')
    (isWritten : function.referent.isSynthesized = false) :
    function' = function := by
  cases alike with
  | written => rfl
  | named => cases isWritten

/-- They capture the same names. -/
theorem captures_eq (alike : Alike left right function function') (name : String) :
    function'.captures right model name = function.captures left model name := by
  cases alike with
  | written _ hasBody stands standsRight => exact hasBody.captures_eq_of_stands stands standsRight
  | named isName isName' isCall isCall' stands standsRight same =>
    rw [captures_named isCall stands isName, captures_named isCall' standsRight isName',
      ← bears_shape, same, bears_shape]

/-- They can be composed at the same places. -/
theorem isComposable_eq (alike : Alike left right function function') (place : Nat) :
    function'.isComposable right model place = function.isComposable left model place := by
  cases alike with
  | written _ hasBody stands standsRight =>
    exact hasBody.isComposable_eq_of_stands stands standsRight place
  | named isName isName' isCall isCall' stands standsRight _ =>
    rw [isComposable_named isCall stands isName, isComposable_named isCall' standsRight isName']

/-- Their bodies come to the same with an expression in the place of the parameter. -/
theorem filled_eq (alike : Alike left right function function') :
    function'.filled right model = function.filled left model := by
  cases alike with
  | written _ hasBody stands standsRight => exact hasBody.filled_eq stands standsRight
  | named isName isName' isCall isCall' stands standsRight same =>
    funext value
    rw [(hasBody_named isCall stands).filled (StandsAll.singleton_iff.2 stands),
      (hasBody_named isCall' standsRight).filled (StandsAll.singleton_iff.2 standsRight),
      Option.map_some, Option.map_some,
      filling_named isCall stands isName, filling_named isCall' standsRight isName', same]

end Alike

end Abstraction

namespace Tree

variable {tree before after : Tree} {whole : Outline} {method : String} {call : Ref}

/-- The calls of a run and their member accesses are found as such. -/
theorem calledMember?_of_mem {bound : Nat} {found : Ref × CalledMember}
    (member : found ∈ tree.callsDownWithin method bound call) :
    tree.calledMember? found.1 = some found.2 := by
  induction bound generalizing call with
  | zero => exact absurd member List.not_mem_nil
  | succ bound ih =>
    rw [callsDownWithin] at member
    split at member
    · split at member
      · rename_i isCalled
        rcases List.mem_cons.1 member with rfl | member
        · exact isCalled
        · exact ih member
      · exact absurd member List.not_mem_nil
    · exact absurd member List.not_mem_nil

/-- The nodes of a called member are stored. -/
theorem Stored.hasRef_of_calledMember? {called : CalledMember} (stored : tree.Stored)
    (isCalled : tree.calledMember? call = some called) :
    tree.HasRef call ∧ tree.HasRef called.access ∧
    (called.receiver ≠ none → tree.HasRef called.receiver) := by
  rw [calledMember?] at isCalled
  split at isCalled
  · rename_i callee arguments isCall
    split at isCalled
    · rename_i receiver name conditional isAccess
      cases isCalled
      refine ⟨hasRef_of_kind_ne (by simp [isCall]), hasRef_of_kind_ne (by simp [isAccess]),
        fun present => ?_⟩
      obtain ⟨number, rfl⟩ := Option.ne_none_iff_exists'.1 present
      refine @Stored.hasRef_of_child _ stored callee _ ?_
      simp [children, isAccess, kindChildren, Kind.slots, slotChildren]
    · cases isCalled
  · cases isCalled

section

variable (program : before.IsProgram whole) (frame : Frame [] [] before after)
  (member : call ∈ whole.refs)

include program frame member

/-- Whether a call of a program is made on another call is the same after a growth. -/
theorem IsProgram.isOnCallOf_of_growth :
    after.isOnCallOf method call = before.isOnCallOf method call := by
  have same := (program.mirrors frame).isOnCallOf method call
  rwa [(program.stands.hasRef member).map_grownNumber] at same

omit frame in
theorem IsProgram.outermostCall_mem : before.outermostCall method call ∈ whole.refs := by
  obtain ⟨part, isPart, rfl⟩ := Term.mem_refs.1 member
  obtain ⟨outer, isOuter, same, -⟩ :=
    @IsProgram.ascends_outermostCall before whole part method program isPart
  exact Term.mem_refs.2 ⟨outer, isOuter, same⟩

/-- The outermost call of a run in a program is the same after a growth. -/
theorem IsProgram.outermostCall_of_growth :
    after.outermostCall method call = before.outermostCall method call := by
  have same := (program.mirrors frame).outermostCall method (program.tops fun _ => member)
  rwa [(program.stands.hasRef member).map_grownNumber,
    (program.stands.hasRef (program.outermostCall_mem member)).map_grownNumber] at same

/-- The calls of a run in a program are the same after a growth. -/
theorem IsProgram.runCalls_of_growth :
    after.runCalls method call = before.runCalls method call := by
  have same := (program.mirrors frame).runCalls method (program.tops fun _ => member)
    (program.grounded fun _ => program.outermostCall_mem member)
  rw [(program.stands.hasRef member).map_grownNumber] at same
  rw [same]
  refine (List.map_congr_left fun found isFound => ?_).trans (List.map_id _)
  obtain ⟨isCall, isAccess, isReceiver⟩ :=
    program.stored.hasRef_of_calledMember? (calledMember?_of_mem (List.mem_reverse.1 isFound))
  rw [Prod.map, CalledMember.renumber, isCall.map_grownNumber, isAccess.map_grownNumber,
    map_grownNumber_of_ne isReceiver]
  rfl

end

end Tree

/-! ### Searches that come to the same -/

section

open Term Refactory.Tree

variable {model : Model} {placeholder placeholder' : String} {left right : Tree}

namespace Tree

/-- An expression is a simple lambda in every tree where it stands. -/
theorem StandsAll.simpleLambda?_eq {value : Option Outline} (all : left.StandsAll value.toList)
    (allRight : right.StandsAll value.toList) :
    right.simpleLambda? (refOf value) = left.simpleLambda? (refOf value) := by
  cases value with
  | none => rfl
  | some term =>
    exact Option.ext fun lambda => (simpleLambda?_iff (allRight.each term (.head _)).shown).trans
      (simpleLambda?_iff (all.each term (.head _)).shown).symm

/-- An expression is a stable path in every tree where it stands. -/
theorem StandsAll.isStablePath_eq {value : Option Outline} (all : left.StandsAll value.toList)
    (allRight : right.StandsAll value.toList) :
    right.isStablePath (refOf value) = left.isStablePath (refOf value) := by
  cases value with
  | none => rfl
  | some term =>
    have isPath {tree : Tree} (stands : tree.Stands term) :
        tree.isStablePath term.ref = true ↔ ∃ root members, IsPath root members term :=
      ⟨exists_isPath stands.shown, fun ⟨_, _, path⟩ => stands.isStablePath path⟩
    exact Bool.eq_iff_iff.2
      ((isPath (allRight.each term (.head _))).trans (isPath (all.each term (.head _))).symm)

end Tree

/-- An expression denotes a function in two trees or in none, and the functions are alike. -/
theorem Abstraction.of?_alike {value : Option Outline} (stored : left.Stored)
    (storedRight : right.Stored)
    (all : left.StandsAll value.toList) (allRight : right.StandsAll value.toList) :
    ∃ found found' after after', of? model placeholder (refOf value) left = (found, after) ∧
      of? model placeholder' (refOf value) right = (found', after') ∧ Frame [] [] left after ∧
      Frame [] [] right after' ∧ Option.Rel (Alike after after') found found' := by
  obtain ⟨found, after, come, frame, isFound⟩ := @of?_finds model placeholder _ _ stored all
  obtain ⟨found', after', come', frame', isFound'⟩ :=
    @of?_finds model placeholder' _ _ storedRight allRight
  refine ⟨found, found', after, after', come, come', frame, frame', ?_⟩
  have isSome : found'.isSome = found.isSome := by
    have isSome := of?_isSome model placeholder left (refOf value)
    have isSome' := of?_isSome model placeholder' right (refOf value)
    rw [come] at isSome
    rw [come', all.simpleLambda?_eq allRight, all.isStablePath_eq allRight] at isSome'
    exact isSome'.trans isSome.symm
  cases found with
  | none =>
    obtain rfl := Option.isNone_iff_eq_none.1 (by simpa using isSome)
    exact .none
  | some function =>
    obtain ⟨function', rfl⟩ := Option.isSome_iff_exists.1 isSome
    obtain ⟨body, hasBody, finds, term, rfl, denotes⟩ := isFound function rfl
    obtain ⟨body', -, finds', _, ⟨⟩, denotes'⟩ := isFound' function' rfl
    exact .some (denotes.alike denotes' hasBody finds.stands finds'.stands)

namespace CallRun

/-- A test of functions that tells no functions apart which are alike. -/
def Acceptance.TreatsAlike (accepts : Acceptance) : Prop :=
  ∀ left right function function' place, Abstraction.Alike left right function function' →
    accepts right function' place = accepts left function place

/-- Calls pass functions in two trees or in none, and the functions are alike. -/
theorem functionsOf?_alike {accepts : Acceptance} (treats : accepts.TreatsAlike) {place : Nat}
    {calls : List Ref}
    {values : List (Option Outline)} (passes : List.Forall₂ left.PassesAt calls values)
    (passesRight : List.Forall₂ right.PassesAt calls values) (stored : left.Stored)
    (storedRight : right.Stored) (all : left.StandsAll (values.flatMap Option.toList))
    (allRight : right.StandsAll (values.flatMap Option.toList)) :
    ∃ found found' after after', functionsOf? model placeholder accepts place calls left =
    (found, after) ∧ functionsOf? model placeholder' accepts place calls right = (found', after') ∧
      Frame [] [] left after ∧ Frame [] [] right after' ∧
      Option.Rel (List.Forall₂ (Abstraction.Alike after after')) found found' := by
  induction calls generalizing place left right values with
  | nil => exact ⟨some [], some [], left, right, rfl, rfl, .refl left, .refl right, .some .nil⟩
  | cons call calls ih =>
    obtain ⟨value, values, isPassed, others, rfl⟩ := List.forall₂_cons_left_iff.1 passes
    obtain ⟨isPassedRight, othersRight⟩ := List.forall₂_cons.1 passesRight
    rw [List.flatMap_cons, StandsAll.append_iff] at all allRight
    obtain ⟨denoted, denoted', middle, middle', come, come', frame, frame', alike⟩ :=
      @Abstraction.of?_alike model placeholder placeholder' _ _ _ stored storedRight all.1
      allRight.1
    rw [functionsOf?_cons calls isPassed.singleArgument? come,
      functionsOf?_cons calls isPassedRight.singleArgument? come']
    cases alike with
    | none => exact ⟨none, none, middle, middle', rfl, rfl, frame, frame', .none⟩
    | @some function function' alike =>
      rw [Option.elim_some, Option.elim_some, treats middle middle' function function' place alike]
      cases accepts middle function place with
      | false => exact ⟨none, none, middle, middle', rfl, rfl, frame, frame', .none⟩
      | true =>
        obtain ⟨found, found', after, after', comeOthers, comeOthers', frameOthers, frameOthers',
          alikeOthers⟩ :=
          @ih middle middle' (place + 1) values (others.imp fun _ _ passes => passes.of_frame frame)
            (othersRight.imp fun _ _ passes => passes.of_frame frame') (frame.stored stored)
            (frame'.stored storedRight) (all.2.1.of_frame frame) (allRight.2.1.of_frame frame')
        refine ⟨found.map (function :: ·), found'.map (function' :: ·), after,
          after', by simp [comeOthers],
          by simp [comeOthers'], frame.grow frameOthers, frame'.grow frameOthers', ?_⟩
        cases alikeOthers with
        | none => exact .none
        | some alikeOthers =>
          exact .some (.cons (alike.of_frames frameOthers frameOthers') alikeOthers)

/-- Runs of the same calls whose functions are alike. -/
structure Alike (whole : Outline) (left right : Tree) (run run' : CallRun) : Prop where
  /-- They have the same outermost call. -/
  outer : run'.outer = run.outer
  /-- They start from the same member access. -/
  anchor : run'.anchor = run.anchor
  /-- It is a node of the program. -/
  member : run.anchor ∈ whole.refs
  /-- Their functions are alike. -/
  functions : List.Forall₂ (Abstraction.Alike left right) run.functions run'.functions

/-- Searches among the same candidates in two trees that a program has grown into pass over the same
runs and come to runs that are alike. -/
theorem searchAmong_alike {accepts : Acceptance} (treats : accepts.TreatsAlike) {method : String}
    {tree : Tree} {whole : Outline} (program : tree.IsProgram whole) (frame : Frame [] [] tree left)
    (frame' : Frame [] [] tree right)
    {seen candidates : List Ref} (within : candidates ⊆ whole.refs) :
    ∃ search search' after after',
    searchAmong model placeholder method accepts seen candidates left = (search, after) ∧
      searchAmong model placeholder' method accepts seen candidates right = (search', after') ∧
      search'.rejected = search.rejected ∧
      Option.Rel (Alike whole after after') search.found search'.found := by
  induction candidates generalizing seen left right with
  | nil => exact ⟨⟨[], none⟩, ⟨[], none⟩, left, right, rfl, rfl, rfl, .none⟩
  | cons candidate candidates ih =>
    obtain ⟨member, within⟩ := List.cons_subset.1 within
    rw [searchAmong, searchAmong, Edit.get_bind, Edit.get_bind,
      program.isOnCallOf_of_growth frame member, program.isOnCallOf_of_growth frame' member,
      program.runCalls_of_growth frame member, program.runCalls_of_growth frame' member,
      program.outermostCall_of_growth frame member, program.outermostCall_of_growth frame' member]
    split
    · exact ih frame frame' within
    -- Whatever the attempts at this candidate come to, both searches go on from there.
    have goesOn {middle middle' : Tree} (frame : Frame [] [] tree middle)
        (frame' : Frame [] [] tree middle') (seen : List Ref)
        (count : Nat) : ∃ search search' after after',
        (do
          let search ← searchAmong model placeholder method accepts seen candidates
          return { search with rejected := count :: search.rejected } : Edit RunSearch) middle
            = (search, after) ∧
        (do
          let search ← searchAmong model placeholder' method accepts seen candidates
          return { search with rejected := count :: search.rejected } : Edit RunSearch) middle'
            = (search', after') ∧
        search'.rejected = search.rejected ∧
          Option.Rel (Alike whole after after') search.found search'.found := by
      obtain ⟨search, search', after, after', come, come', rejected, found⟩ :=
        @ih _ _ frame frame' seen within
      refine ⟨{ search with rejected := count :: search.rejected },
        { search' with rejected := count :: search'.rejected }, after,
        after', ?_, ?_, congrArg (List.cons count) rejected, found⟩
      · rw [Edit.bind_apply, come]
        rfl
      · rw [Edit.bind_apply, come']
        rfl
    cases isFirst : (tree.runCalls method candidate).head? with
    | none =>
      rw [List.head?_eq_none_iff.1 isFirst]
      exact goesOn frame frame' _ _
    | some first =>
      obtain ⟨call, isPart, rfl⟩ := mem_refs.1 member
      obtain ⟨outer, anchor, values, isOuter, -, -, isAnchor, passes, all, inside, -⟩ :=
        exists_of_runCalls program isPart isFirst
      have passed := (StandsAll.cons_iff.1 all).2.1
      obtain ⟨found, found', middle, middle', come, come', grow, grow', alike⟩ :=
        @functionsOf?_alike model placeholder placeholder' _ _ accepts treats 0 _ _
          (passes.imp fun _ _ passes => passes.of_frame frame)
          (passes.imp fun _ _ passes => passes.of_frame frame') (frame.stored program.stored)
          (frame'.stored program.stored) (passed.of_frame frame) (passed.of_frame frame')
      have isMember : first.2.access ∈ whole.refs := refs_subset isOuter
        (inside (List.mem_flatMap.2 ⟨anchor, .head _, isAnchor ▸ ref_mem_refs anchor⟩))
      have goesOn := goesOn (frame.grow grow) (frame'.grow grow')
        ((tree.runCalls method call.ref).map (·.1) ++ seen) (tree.runCalls method call.ref).length
      simp only [Edit.bind_apply, come, come']
      rw [isFirst]
      cases alike with
      | none => exact goesOn
      | some alike =>
        cases alike with
        | nil => exact goesOn
        | cons here others => exact ⟨_, _, middle, middle', rfl, rfl, rfl,
          .some ⟨rfl, rfl, isMember, .cons here others⟩⟩

/-- Searches for runs in a node of a program come to the same, whatever the parameters of the
functions are called that are made up. -/
theorem search_alike {accepts : Acceptance} (treats : accepts.TreatsAlike) {method : String}
    {tree : Tree} {whole : Outline}
    (program : tree.IsProgram whole) {container : Ref} (member : container ∈ whole.refs) :
    ∃ found found' after after', search model placeholder method container accepts tree =
    (found, after) ∧ search model placeholder' method container accepts tree = (found', after') ∧
      found'.rejected = found.rejected ∧
      Option.Rel (Alike whole after after') found.found found'.found :=
  searchAmong_alike treats program (.refl tree) (.refl tree) fun _ isCall =>
    program.descendants_subset member (List.mem_of_mem_filter isCall)

end CallRun

end

end Refactory
