import Refactory.Sequence
import Refactory.Proofs.Refactoring.Shape
import Refactory.Proofs.Refactoring.Versions

/-!
# Sequences of refactorings

A sequence may go on with the changed tree itself or with the tree of its text. Since refactorings
see only shapes, it makes no difference as long as each text that the sequence goes on from is read
as a term of the shape of its tree (`Standing.run_alike`).
-/
namespace Refactory

open Refactory.Tree Context

variable {standing : Standing}

/-- The text of a tree is read as a term of the shape of the tree. -/
def Tree.Rereads (tree : Tree) : Prop :=
  ∃ term, SourceTerm.parse (Command.text tree) = .ok term ∧ term.shape = tree.shape

/-- Two sequences stand at well-formed trees of one shape. -/
structure Standing.Alike (standing other : Standing) : Prop where
  /-- The one tree is well formed. -/
  wellFormed : standing.tree.WellFormed
  /-- So is the other one. -/
  wellFormedOther : other.tree.WellFormed
  /-- They have one shape. -/
  shape : standing.tree.shape = other.tree.shape

/-- The same was done in two sequences, and where the text can be read again, both go on from trees
of one shape. -/
structure Done.Alike (done other : Done) : Prop where
  /-- The actions. -/
  action : done.action.Alike other.action
  /-- The texts. -/
  text : other.text = done.text
  /-- Where the sequences go on. -/
  next : done.action.result.Rereads → ∃ standing standing', done.next = .ok standing ∧
    other.next = .ok standing' ∧
    standing.Alike standing'

/-- A step comes to the same in two sequences, and fails in neither. -/
def StepAlike (outcome other : Except RefactoringError (Option Done)) : Prop :=
  ∃ done done', outcome = .ok done ∧ other = .ok done' ∧ Option.Rel Done.Alike done done'

namespace Standing

/-- What the steps of a sequence come to, each of which is a refactoring at a place in
pre-order. A step that comes to nothing changes nothing, and the sequence ends where a text
cannot be read again. -/
def run (continuation : Continuation) (settings : Settings) :
    Standing → List (Refactoring × Nat) → List (Except RefactoringError (Option Done))
  | _, [] => []
  | standing, (refactoring, place) :: steps =>
    let outcome := standing.advance continuation settings refactoring (.place place)
    outcome ::
      match outcome with
      | .ok (some done) =>
        match done.next with
        | .ok next => run continuation settings next steps
        | .error _ => []
      | _ => run continuation settings standing steps

/-- Where the text of a well-formed tree is read as a term of its shape, a sequence goes on from a
well-formed tree of that shape, be it the tree itself or the tree of its text. -/
theorem exists_after (standing : Standing) (continuation : Continuation) {changed : Tree}
    (wellFormed : changed.WellFormed) (rereads : changed.Rereads) :
    ∃ next, standing.after continuation changed (Command.text changed) = .ok next ∧
      next.tree.WellFormed ∧ next.tree.shape = changed.shape := by
  cases continuation with
  | tree => exact ⟨_, rfl, wellFormed, rfl⟩
  | text =>
    obtain ⟨term, read, same⟩ := rereads
    have parsed :
        Tree.parse changed.clock (Command.text changed) = .ok (ofTerm changed.clock term) := by
      rw [Tree.parse_eq, read]
      rfl
    refine ⟨⟨ofTerm changed.clock term, Command.text changed⟩, ?_, wellFormed_of_parse parsed, ?_⟩
    · rw [after, parsed]
      rfl
    · exact (shape_ofTerm _ _).trans same

theorem text_eq (tree : Tree) : Command.text tree = tree.shape.written :=
    (Term.written_shape _).symm

/-- What is done when an action is taken. -/
def doing (standing : Standing) (continuation : Continuation) (action : Action) : Done :=
  ⟨action, Command.text action.result,
    standing.after continuation action.result (Command.text action.result)⟩

/-- Whatever is offered in a step is done. -/
theorem advance_eq (continuation : Continuation) {settings : Settings} {refactoring : Refactoring}
    {place number : Nat} {offered : Option Action} (wellFormed : standing.tree.WellFormed)
    (here : standing.tree.attached[place]? = some (some number))
    (come : (Context.ofTree standing.tree settings).offered? refactoring (some number)
      = .ok offered) :
    standing.advance continuation settings refactoring (.place place)
      = .ok (offered.map (standing.doing continuation)) := by
  rw [advance, locate?, here]
  simp only [Option.join_some, come]
  cases offered with
  | none => rfl
  | some action =>
    have applied : action.apply standing.tree = .ok action.result := Action.apply_eq_ok_iff.2
      ⟨(Context.offered_renews wellFormed.stored.listsStored _ come).1.symm, rfl⟩
    simp only [bind, Except.bind, applied]
    rfl

/-- What is done is the same when actions that are alike are taken. -/
theorem doing_alike (standing other : Standing) (continuation continuation' : Continuation)
    {action action' : Action} (alike : action.Alike action') (wellFormed : action.result.WellFormed)
    (wellFormed' : action'.result.WellFormed) :
    (standing.doing continuation action).Alike (other.doing continuation' action') := by
  have text : Command.text action'.result = Command.text action.result := by
    rw [text_eq, text_eq, alike.shape]
  refine ⟨alike, text, fun rereads => ?_⟩
  have rereads' : action'.result.Rereads := by
    rw [Tree.Rereads, text, alike.shape]
    exact rereads
  obtain ⟨next, isNext, wellFormedNext, shape⟩ :=
    standing.exists_after continuation wellFormed rereads
  obtain ⟨next', isNext', wellFormedNext', shape'⟩ :=
    other.exists_after continuation' wellFormed' rereads'
  exact ⟨next, next', isNext, isNext', wellFormedNext,
    wellFormedNext', by rw [shape, shape', alike.shape]⟩

/-- A step comes to the same in sequences that stand at trees of one shape, however they go on. -/
theorem advance_alike {other : Standing} (alike : standing.Alike other)
    (continuation continuation' : Continuation)
    (settings : Settings) (refactoring : Refactoring) (place : Nat) :
    StepAlike (standing.advance continuation settings refactoring (.place place))
      (other.advance continuation' settings refactoring (.place place)) := by
  obtain ⟨wellFormed, wellFormedOther, same⟩ := alike
  have lengths := length_attached wellFormed wellFormedOther same
  by_cases inside : place < standing.tree.attached.length
  · have present {tree : Tree} (wellFormed : tree.WellFormed)
        (inside : place < tree.attached.length) :
        ∃ number, tree.attached[place]? = some (some number) := by
      obtain ⟨whole, program⟩ := wellFormed_iff.1 wellFormed
      have inWhole : tree.attached ⊆ whole.refs := fun _ member => program.attached ▸ member
      obtain ⟨number, -, isNumber⟩ := program.stands.hasRef (inWhole (List.getElem_mem inside))
      exact ⟨number, by rw [List.getElem?_eq_getElem inside, isNumber]⟩
    obtain ⟨number, here⟩ := present wellFormed inside
    obtain ⟨number', there⟩ := present wellFormedOther (lengths ▸ inside)
    obtain ⟨offered, offered', log, come, come', offers⟩ :=
      attempt_alike wellFormed wellFormedOther same settings refactoring here there #[]
    replace come : (Context.ofTree standing.tree settings).offered? refactoring (some number)
      = .ok offered := congrArg Prod.fst come
    replace come' : (Context.ofTree other.tree settings).offered? refactoring (some number')
      = .ok offered' := congrArg Prod.fst come'
    refine ⟨_, _, advance_eq continuation wellFormed here come,
      advance_eq continuation' wellFormedOther there come', ?_⟩
    cases offers with
    | none => exact .none
    | some actions =>
      refine .some (doing_alike standing other continuation continuation' actions ?_ ?_)
      · exact @wellFormed_of_offered (.ofTree standing.tree settings) _ _ _ wellFormed
          (List.mem_of_getElem? here) come
      · exact @wellFormed_of_offered (.ofTree other.tree settings) _ _ _ wellFormedOther
          (List.mem_of_getElem? there) come'
  · have absent {standing : Standing} (continuation : Continuation)
      (outside : ¬ place < standing.tree.attached.length) :
        standing.advance continuation settings refactoring (.place place) = .ok none := by
      rw [advance, locate?, List.getElem?_eq_none (Nat.le_of_not_lt outside)]
      rfl
    exact ⟨none, none, absent continuation inside, absent continuation' (lengths ▸ inside), .none⟩

/-- All steps come to the same in sequences that start from trees of one shape, however they go on,
as long as each text that one of them goes on from is read as a term of the shape of its tree. -/
theorem run_alike (settings : Settings) (continuation continuation' : Continuation)
    (steps : List (Refactoring × Nat))
    {other : Standing} (alike : standing.Alike other)
    (rereads : ∀ done, .ok (some done) ∈ standing.run continuation settings steps.dropLast →
      done.action.result.Rereads) :
    List.Forall₂ StepAlike (standing.run continuation settings steps)
    (other.run continuation' settings steps) := by
  induction steps generalizing standing other with
  | nil => exact .nil
  | cons step steps ih =>
    obtain ⟨refactoring, place⟩ := step
    obtain ⟨done, done', isDone, isDone', same⟩ :=
      advance_alike alike continuation continuation' settings refactoring place
    refine .cons ⟨done, done', isDone, isDone', same⟩ ?_
    -- The steps before the last one are this step and the others before the last one, if there are
    -- others.
    rcases steps.eq_nil_or_concat' with rfl | ⟨others, last, rfl⟩
    · simp only [isDone, isDone']
      cases same with
      | none => exact .nil
      | @some done done' same =>
        dsimp only
        cases done.next <;> cases done'.next <;> exact .nil
    · have front : ((refactoring, place) :: (others ++ [last])).dropLast
          = (refactoring, place) :: others := by
        rw [← List.cons_append, List.dropLast_concat]
      rw [front, run] at rereads
      simp only [isDone] at rereads
      rw [List.dropLast_concat] at ih
      simp only [isDone, isDone']
      cases same with
      | none => exact ih alike fun done member => rereads done (.tail _ member)
      | @some done done' same =>
        obtain ⟨next, next', isNext, isNext', alike⟩ := same.next (rereads done (.head _))
        simp only [isNext, isNext'] at rereads ⊢
        exact ih alike fun done member => rereads done (.tail _ member)

end Standing

/-- A sequence starts at a well-formed tree. -/
theorem Standing.wellFormed_of_source {source : String} {start : Standing}
    (isStart : ofSource source = .ok start) :
    start.tree.WellFormed := by
  rw [ofSource] at isStart
  cases parsed : Tree.parse 0 source with
  | error failure =>
    rw [parsed] at isStart
    cases isStart
  | ok tree =>
    rw [parsed] at isStart
    cases isStart
    exact wellFormed_of_parse parsed

/-- Refactorings see only shapes. At nodes with the same place in well-formed trees of one shape,
each is offered in both or in neither, with one title and results of one shape. So a sequence comes
to the same whether it goes on with the changed tree or with the tree of its text, as long as each
text that it goes on from is read as a term of the shape of its tree. -/
theorem refactoring_sees_only_shape (settings : Settings) :
    (∀ left right : Tree, left.WellFormed → right.WellFormed → left.shape = right.shape →
      left.attached.length = right.attached.length ∧
      ∀ refactoring (place : Nat) ref other log, left.attached[place]? = some ref →
        right.attached[place]? = some other → ∃ offered offered' log',
          (Context.ofTree left settings).attempt refactoring ref log = (.ok offered, log') ∧
          (Context.ofTree right settings).attempt refactoring other log = (.ok offered', log') ∧
          Option.Rel Action.Alike offered offered') ∧
    ∀ (start : Standing) (steps : List (Refactoring × Nat)), start.tree.WellFormed → (∀ done,
        .ok (some done) ∈ start.run .tree settings steps.dropLast → done.action.result.Rereads) →
      List.Forall₂ StepAlike (start.run .tree settings steps) (start.run .text settings steps) := by
  refine ⟨fun left right wellFormed wellFormedRight same =>
    ⟨length_attached wellFormed wellFormedRight same, ?_⟩, fun start steps wellFormed rereads => ?_⟩
  · exact fun refactoring place ref other log here there =>
      attempt_alike wellFormed wellFormedRight same settings refactoring here there log
  · exact Standing.run_alike settings .tree .text steps ⟨wellFormed, wellFormed, rfl⟩ rereads

/-- A temporary that was inlined is introduced again, in the changed tree and in the tree of its
text. -/
theorem inlined_and_reread_alike : ∃ start action again ref other,
    Standing.ofSource "var a = x.F(); var b = a.G();" = .ok start ∧
      (Context.ofTree start.tree {}).offered? .chainCalls (some 5) = .ok (some action) ∧
      Tree.parse 0 (Command.text action.result) = .ok again ∧ action.result.WellFormed ∧
      again.WellFormed ∧ action.result.shape = again.shape ∧ action.result.attached[1]? = some ref ∧
      again.attached[1]? = some other ∧
      (∃ back back' log', (Context.ofTree action.result {}).attempt .unchainCalls ref #[]
        = (.ok (some back), log') ∧ (Context.ofTree again {}).attempt .unchainCalls other #[]
          = (.ok (some back'), log') ∧ back.Alike back') ∧
      List.Forall₂ StepAlike (start.run .tree {} [(.chainCalls, 1), (.unchainCalls, 1)])
        (start.run .text {} [(.chainCalls, 1), (.unchainCalls, 1)]) := by
  have offers : ((Standing.ofSource "var a = x.F(); var b = a.G();").toOption.any fun start =>
      start.tree.attached[1]? == some (some 5) &&
        ((Context.ofTree start.tree {}).offered? .chainCalls (some 5)).toOption.any
        (·.any fun action => action.result.attached[1]?.any fun ref =>
            ((Context.ofTree action.result {}).offered? .unchainCalls ref).toOption.any (·.isSome)))
            = true := by
    decide +kernel
  have shapes : ((Standing.ofSource "var a = x.F(); var b = a.G();").toOption.bind fun start =>
        ((Context.ofTree start.tree {}).offered? .chainCalls (some 5)).toOption.join.map
        (·.result.shape))
      = (Standing.ofSource "var a = x.F(); var b = a.G();").toOption.bind fun start =>
        ((Context.ofTree start.tree {}).offered? .chainCalls (some 5)).toOption.join.bind
        fun action => (SourceTerm.parse (Command.text action.result)).toOption.map Term.shape := by
    cbv
  obtain ⟨start, isStart, offers⟩ := (Option.any_eq_true _ _).1 offers
  obtain ⟨isPlace, offers⟩ := Bool.and_eq_true_iff.1 offers
  obtain ⟨offered, isOffered, inlines⟩ := (Option.any_eq_true _ _).1 offers
  obtain ⟨action, rfl, hasPlace⟩ := (Option.any_eq_true _ _).1 inlines
  obtain ⟨ref, isRef, introduces⟩ := (Option.any_eq_true _ _).1 hasPlace
  obtain ⟨offered, isBack, some⟩ := (Option.any_eq_true _ _).1 introduces
  obtain ⟨back, rfl⟩ := Option.isSome_iff_exists.1 some
  rw [isStart] at shapes
  simp only [Option.bind_some, isOffered, Option.join_some, Option.map_some] at shapes
  obtain ⟨term, read, same⟩ := Option.map_eq_some_iff.1 shapes.symm
  replace isStart := Context.eq_ok_of_toOption isStart
  replace isOffered := Context.eq_ok_of_toOption isOffered
  replace read := Context.eq_ok_of_toOption read
  replace isPlace := beq_iff_eq.1 isPlace
  have wellFormed := Standing.wellFormed_of_source isStart
  have finished := @wellFormed_of_offered (.ofTree start.tree {}) _ _ _ wellFormed
      (List.mem_of_getElem? isPlace) isOffered
  have reread : Tree.parse 0 (Command.text action.result) = .ok (ofTerm 0 term) := by
    rw [Tree.parse_eq, read]
    rfl
  have wellFormedAgain := wellFormed_of_parse reread
  have shape : action.result.shape = (ofTerm 0 term).shape :=
    same.symm.trans (shape_ofTerm 0 term).symm
  obtain ⟨onShapes, onSequences⟩ := refactoring_sees_only_shape {}
  obtain ⟨lengths, attempts⟩ :=
    onShapes action.result (ofTerm 0 term) finished wellFormedAgain shape
  have isOther := List.getElem?_eq_getElem (lengths ▸ (List.getElem?_eq_some_iff.1 isRef).1)
  refine ⟨start, action, ofTerm 0 term, ref, _, isStart, isOffered, reread, finished,
    wellFormedAgain, shape, isRef,
    isOther, ?_, onSequences start _ wellFormed fun done member => ?_⟩
  · obtain ⟨offered, offered', log', come, come', alike⟩ :=
      attempts .unchainCalls 1 ref _ #[] isRef isOther
    obtain rfl : offered = Option.some back :=
      Except.ok.inj ((congrArg Prod.fst come).symm.trans (Context.eq_ok_of_toOption isBack))
    cases alike with | some alike => ?_
    exact ⟨back, _, log', come, come', alike⟩
  · simp only [List.dropLast, Standing.run,
      Standing.advance_eq .tree wellFormed isPlace isOffered] at member
    obtain rfl : done = start.doing .tree action := by
      simpa [Standing.doing, Standing.after] using member
    exact ⟨term, read, same⟩

end Refactory
