import Refactory.Proofs.Tree.Placing

/-!
# What attempts come to

An attempt gives something when it comes upon no violation, whatever its log (`Attempt.Gives`); what
is known of it only where it comes upon none is less (`Attempt.Yields`). What a change makes of a
program is offered as the result (`Context.offer_offers`).
-/
namespace Refactory

namespace Attempt

variable {α β : Type}

/-- An attempt comes to something with a property, whatever its log. -/
def Gives (attempt : Attempt α) (post : α → Prop) : Prop :=
  ∀ log : Log, ∃ result log', attempt log = (.ok result, log') ∧ post result

theorem Gives.pure {result : α} {post : α → Prop} (posted : post result) :
    Gives (pure result : Attempt α) post := fun log => ⟨result, log, rfl, posted⟩

/-- One attempt after another. -/
theorem Gives.bind {attempt : Attempt α} {next : α → Attempt β} {post : α → Prop} {post' : β → Prop}
    (first : Gives attempt post) (second : ∀ result, post result → Gives (next result) post') :
    Gives (attempt >>= next) post' := by
  intro log
  obtain ⟨result, middle, come, posted⟩ := first log
  obtain ⟨result', after, comeNext, posted'⟩ := second result posted middle
  refine ⟨result', after, ?_, posted'⟩
  change ExceptT.bindCont next (attempt log).1 (attempt log).2 = _
  rw [come]
  exact comeNext

theorem Gives.mono {attempt : Attempt α} {post post' : α → Prop} (gives : Gives attempt post)
    (weaken : ∀ result, post result → post' result) : Gives attempt post' := by
  intro log
  obtain ⟨result, log', come, posted⟩ := gives log
  exact ⟨result, log', come, weaken result posted⟩

/-- Putting an event into the log comes to nothing else. -/
theorem note_gives (event : Event) : Gives (note event) fun _ => True :=
  fun log => ⟨(), log.push event, rfl, trivial⟩

theorem noteAll_gives (events : List Event) : Gives (noteAll events) fun _ => True :=
  fun log => ⟨(), log ++ events.toArray, rfl, trivial⟩

theorem pickName_gives (scope : NameScope) (preferred : List String) (ladder : NameLadder) :
    Gives (pickName scope preferred ladder) (· = scope.pick preferred ladder) :=
  fun log => ⟨_, log.push _, rfl, rfl⟩

end Attempt

/-- Whatever is offered has a result with a property. -/
def Offers (post : Tree → Prop) (offered : Option Action) : Prop :=
  ∀ action, offered = some action → post action.result

/-- Whatever is offered has a program for its result. -/
def OffersProgram : Option Action → Prop := Offers fun result => ∃ term, result.IsProgram term

namespace Attempt

variable {post : Tree → Prop}

theorem none_offers : Gives (pure none) (Offers post) :=
  .pure fun _ offered => absurd offered.symm (Option.some_ne_none _)

theorem refuse_offers (refusal : Refusal) : Gives (refuse refusal) (Offers post) :=
  (note_gives _).bind fun _ _ => none_offers

end Attempt

/-- Whatever an attempt comes to, if it does not fail, has a property. -/
def Attempt.Yields {α : Type} (attempt : Attempt α) (post : α → Prop) : Prop :=
  ∀ log result log', attempt log = (.ok result, log') → post result

namespace Attempt.Yields

variable {α β : Type}

theorem pure {result : α} {post : α → Prop}
    (posted : post result) : Yields (Pure.pure result : Attempt α) post := by
  rintro log _ _ ⟨⟩
  exact posted

theorem bind {attempt : Attempt α} {next : α → Attempt β} {post : α → Prop} {post' : β → Prop}
    (first : Yields attempt post) (others : ∀ result, post result → Yields (next result) post') :
    Yields (attempt >>= next) post' := by
  intro log result log' come
  change ExceptT.bindCont next (attempt log).1 (attempt log).2 = _ at come
  cases came : attempt log with
  | mk outcome middle =>
    rw [came] at come
    cases outcome with
    | error => cases come
    | ok value => exact others value (first log value middle came) middle result log' come

theorem any (attempt : Attempt α) : Yields attempt fun _ => True := fun _ _ _ _ => trivial

theorem none {post : Tree → Prop} : Yields (Pure.pure none) (Offers post) :=
  .pure fun _ offered => absurd offered.symm (Option.some_ne_none _)

theorem refuse {post : Tree → Prop}
    (refusal : Refusal) : Yields (Attempt.refuse refusal) (Offers post) :=
  (Yields.any _).bind fun _ _ => none

end Attempt.Yields

/-- What an attempt gives in every case has the property. -/
theorem Attempt.Gives.yields {α : Type} {attempt : Attempt α} {post : α → Prop}
    (gives : Gives attempt post) :
    Yields attempt post := by
  intro log result log' come
  obtain ⟨given, middle, comeGiven, posted⟩ := gives log
  obtain ⟨same, -⟩ := Prod.mk.inj (comeGiven.symm.trans come)
  exact Except.ok.inj same ▸ posted

/-- The statement of a node of a program is a node of the program. -/
theorem Tree.IsProgram.statementOf_mem {tree : Tree} {whole : Outline} {ref : Ref}
    (program : tree.IsProgram whole)
    (member : ref ∈ whole.refs) : tree.statementOf ref ∈ whole.refs := by
  rw [Tree.statementOf]
  cases found : (tree.lineage ref).find? fun ref => (tree.kind ref).isStatement with
  | none => exact member
  | some statement => exact program.lineage_subset member (List.mem_of_find?_eq_some found)

/-- What a change of a tree comes to is offered. -/
theorem Context.offer_offers {context : Context} {refactoring : Refactoring} {title : String}
    {start : Tree} {change : Change Unit} {post : Tree → Prop}
    (changes : ∃ after, change start = .ok ((), after) ∧ post after) :
    Attempt.Gives (context.offer refactoring title start change) (Offers post) := by
  obtain ⟨after, changed, posted⟩ := changes
  rw [offer, StateT.run, changed]
  refine (Attempt.note_gives _).bind fun _ _ => .pure ?_
  rintro _ ⟨rfl⟩
  exact posted

end Refactory
