import Mathlib.Data.List.Forall2
import Refactory.Attempt
import Refactory.Tree.Fold

/-!
# What edits keep

Some things hold of a tree after an edit if they held before it, and the tree after the edit then
comes after the tree before it in some way (`Keeping`). What is said of such an edit and of its
result (`Edit.Keeps`) is put together along the steps of the edit; of a change (`Change.Keeps`) it
is said where the change comes to something.
-/
namespace Refactory

variable {holds : Tree → Prop} {leads : Tree → Tree → Prop} {α β : Type} {tree : Tree}
  {post post' : α → Tree → Prop}

/-- What is to hold of a tree holds of every tree that comes after it. -/
class Keeping (holds : Tree → Prop) (leads : Tree → Tree → Prop) : Prop where
  /-- A tree of which it holds comes after itself. -/
  refl : ∀ {tree : Tree}, holds tree → leads tree tree
  /-- What comes after a later tree comes after the first one. -/
  trans : ∀ {before middle after : Tree}, leads before middle → leads middle after →
    leads before after
  /-- It holds of what comes after. -/
  kept : ∀ {before after : Tree}, leads before after → holds after

/-- An edit keeps what held of a tree, and its result is as said. -/
def Edit.Keeps (holds : Tree → Prop) (leads : Tree → Tree → Prop) (edit : Edit α) (tree : Tree)
    (post : α → Tree → Prop) : Prop :=
  holds tree → leads tree (edit tree).2 ∧ post (edit tree).1 (edit tree).2

/-- A change keeps what held of a tree where it comes to something, and its result is as said. -/
def Change.Keeps (holds : Tree → Prop) (leads : Tree → Tree → Prop) (change : Change α)
    (tree : Tree)
    (post : α → Tree → Prop) : Prop :=
  holds tree → ∀ value after, change tree = .ok (value, after) → leads tree after ∧ post value after

/-- A counted edit keeps what held of a tree, whatever the count, and its result is as said. -/
def Tree.Counted.Keeps (holds : Tree → Prop) (leads : Tree → Tree → Prop) (edit : Tree.Counted α)
    (tree : Tree)
    (post : α → Tree → Prop) : Prop :=
  ∀ count, Edit.Keeps holds leads (edit count) tree fun result after => post result.1 after

namespace Edit.Keeps

theorem mono {edit : Edit α} (keeps : Edit.Keeps holds leads edit tree post)
    (weaken : ∀ value after, leads tree after → post value after → post' value after) :
    Edit.Keeps holds leads edit tree post' :=
  fun held => ⟨(keeps held).1, weaken _ _ (keeps held).1 (keeps held).2⟩

theorem weaken {edit : Edit α} (keeps : Edit.Keeps holds leads edit tree post) :
    Edit.Keeps holds leads edit tree fun _ _ => True := keeps.mono fun _ _ _ _ => trivial

/-- That it holds of the tree before may be used. -/
theorem given {edit : Edit α} (keeps : holds tree → Edit.Keeps holds leads edit tree post) :
    Edit.Keeps holds leads edit tree post :=
  fun held => keeps held held

/-- An edit that reads the tree first keeps it if it does so with what it has read. -/
theorem get_bind {next : Tree → Edit β} {post : β → Tree → Prop}
    (keeps : Edit.Keeps holds leads (next tree) tree post) :
    Edit.Keeps holds leads (MonadState.get >>= next) tree post := keeps

theorem ite {condition : Prop} [Decidable condition] {edit other : Edit α}
    (here : condition → Edit.Keeps holds leads edit tree post)
    (there : ¬condition → Edit.Keeps holds leads other tree post) :
    Edit.Keeps holds leads (if condition then edit else other) tree post := by
  split
  · exact here ‹_›
  · exact there ‹_›

variable [keeping : Keeping holds leads]

theorem pure {value : α} (posted : post value tree) :
    Edit.Keeps holds leads (Pure.pure value) tree post := fun held => ⟨keeping.refl held, posted⟩

/-- Edits that keep it one after the other keep it together. -/
theorem bind {edit : Edit α} {next : α → Edit β} {post' : β → Tree → Prop}
    (first : Edit.Keeps holds leads edit tree post)
    (others : ∀ value after, leads tree after → post value after →
      Edit.Keeps holds leads (next value) after post') :
    Edit.Keeps holds leads (edit >>= next) tree post' := by
  intro held
  obtain ⟨come, posted⟩ := first held
  obtain ⟨come', posted'⟩ := others _ _ come posted (keeping.kept come)
  exact ⟨keeping.trans come come', posted'⟩

/-- What holds of the result of each element of a list, and lasts, holds of all. -/
theorem mapM {edit : α → Edit β} {items : List α} {post : Tree → α → β → Prop}
    (lasting : ∀ before after item result, leads before after → post before item result →
      post after item result)
    (each : ∀ item ∈ items, ∀ middle, leads tree middle →
      Edit.Keeps holds leads (edit item) middle fun result after => post after item result) :
    Edit.Keeps holds leads (items.mapM edit) tree fun results after =>
    List.Forall₂ (post after) items results := by
  induction items generalizing tree with
  | nil => exact .pure .nil
  | cons item items ih =>
    rw [List.mapM_cons]
    refine .given fun held => ?_
    refine (each item (.head _) tree (keeping.refl held)).bind fun result middle come posted => ?_
    refine (ih fun other member after come' => each other (.tail _ member) after
      (keeping.trans come come')).bind fun results after come' others => ?_
    exact .pure (.cons (lasting _ _ _ _ come' posted) others)

theorem each {edit : α → Edit β} {items : List α}
    (each : ∀ item tree, Edit.Keeps holds leads (edit item) tree fun _ _ => True) :
    Edit.Keeps holds leads (items.mapM edit) tree fun _ _ => True :=
  (mapM (fun _ _ _ _ _ => id) fun item _ middle _ => each item middle).weaken

end Edit.Keeps

namespace Tree.Counted.Keeps

theorem mono {edit : Counted α} (keeps : Counted.Keeps holds leads edit tree post)
    (weaken : ∀ value after, leads tree after → post value after → post' value after) :
    Counted.Keeps holds leads edit tree post' :=
    fun count => (keeps count).mono fun result => weaken result.1

theorem given {edit : Counted α} (keeps : holds tree → Counted.Keeps holds leads edit tree post) :
    Counted.Keeps holds leads edit tree post :=
  fun count held => keeps held count held

/-- An edit keeps it when nothing is counted as it does otherwise. -/
theorem lift {edit : Edit α} (keeps : Edit.Keeps holds leads edit tree post) :
    Counted.Keeps holds leads (liftM edit) tree post := fun _ => keeps

theorem get_bind {next : Tree → Counted β} {post : β → Tree → Prop}
    (keeps : Counted.Keeps holds leads (next tree) tree post) :
    Counted.Keeps holds leads (getThe Tree >>= next) tree post := keeps

theorem count_bind {next : Nat → Counted β} {post : β → Tree → Prop}
    (keeps : ∀ count, Counted.Keeps holds leads (next count) tree post) :
    Counted.Keeps holds leads (getThe Nat >>= next) tree post := fun count => keeps count count

variable [keeping : Keeping holds leads]

theorem pure {value : α} (posted : post value tree) :
    Counted.Keeps holds leads (Pure.pure value) tree post := fun _ => .pure posted

theorem modify (change : Nat → Nat) :
    Counted.Keeps holds leads (modifyThe Nat change) tree fun (_ : PUnit) _ => True :=
    fun _ => .pure trivial

/-- Counted edits that keep it one after the other keep it together. -/
theorem bind {edit : Counted α} {next : α → Counted β} {post' : β → Tree → Prop}
    (first : Counted.Keeps holds leads edit tree post)
    (others : ∀ value after, leads tree after → post value after →
      Counted.Keeps holds leads (next value) after post') :
    Counted.Keeps holds leads (edit >>= next) tree post' := fun count =>
  (first count).bind fun result after come posted => others result.1 after come posted result.2

/-- What holds of the result of each element of a list, and lasts, holds of all. -/
theorem mapM {edit : α → Counted β} {items : List α} {post : Tree → α → β → Prop}
    (lasting : ∀ before after item result, leads before after → post before item result →
      post after item result)
    (each : ∀ item ∈ items, ∀ middle, leads tree middle →
      Counted.Keeps holds leads (edit item) middle fun result after => post after item result) :
    Counted.Keeps holds leads (items.mapM edit) tree fun results after =>
      List.Forall₂ (post after) items results := by
  induction items generalizing tree with
  | nil => exact .pure .nil
  | cons item items ih =>
    rw [List.mapM_cons]
    refine .given fun held => ?_
    refine (each item (.head _) tree (keeping.refl held)).bind fun result middle come posted => ?_
    refine (ih fun other member after come' => each other (.tail _ member) after
      (keeping.trans come come')).bind fun results after come' others => ?_
    exact .pure (.cons (lasting _ _ _ _ come' posted) others)

end Tree.Counted.Keeps

namespace Change.Keeps

theorem mono {change : Change α} (keeps : Change.Keeps holds leads change tree post)
    (weaken : ∀ value after, leads tree after → post value after → post' value after) :
    Change.Keeps holds leads change tree post' := by
  intro held value after done
  obtain ⟨come, posted⟩ := keeps held value after done
  exact ⟨come, weaken value after come posted⟩

theorem given {change : Change α}
    (keeps : holds tree → Change.Keeps holds leads change tree post) :
    Change.Keeps holds leads change tree post := fun held => keeps held held

/-- An edit keeps it as part of a change. -/
theorem lift {edit : Edit α} (keeps : Edit.Keeps holds leads edit tree post) :
    Change.Keeps holds leads (liftM edit) tree post := by
  intro held value after done
  obtain ⟨rfl, rfl⟩ := Prod.mk.inj (Except.ok.inj (show Except.ok (edit tree) = _ from done))
  exact keeps held

theorem get_bind {next : Tree → Change β} {post : β → Tree → Prop}
    (keeps : Change.Keeps holds leads (next tree) tree post) :
    Change.Keeps holds leads (MonadState.get >>= next) tree post := keeps

variable [keeping : Keeping holds leads]

theorem pure {value : α} (posted : post value tree) :
    Change.Keeps holds leads (Pure.pure value) tree post := by
  rintro held _ _ ⟨⟩
  exact ⟨keeping.refl held, posted⟩

/-- Changes that keep it one after the other keep it together. -/
theorem bind {change : Change α} {next : α → Change β} {post' : β → Tree → Prop}
    (first : Change.Keeps holds leads change tree post)
    (others : ∀ value after, leads tree after → post value after →
      Change.Keeps holds leads (next value) after post') :
    Change.Keeps holds leads (change >>= next) tree post' := by
  intro held value after done
  change Except.bind (change tree) (fun result => next result.1 result.2) = _ at done
  cases came : change tree with
  | error cause =>
    rw [came] at done
    cases done
  | ok result =>
    rw [came] at done
    obtain ⟨come, posted⟩ := first held _ _ came
    obtain ⟨come', posted'⟩ := others _ _ come posted (keeping.kept come) _ _ done
    exact ⟨keeping.trans come come', posted'⟩

theorem demand (found : Bool) (cause : Violation) :
    Change.Keeps holds leads (Refactory.Change.demand found cause) tree fun _ _ => True := by
  rw [Refactory.Change.demand]
  split
  · exact .pure trivial
  · rintro - _ _ ⟨⟩

theorem require (found : Option α) (cause : Violation) :
    Change.Keeps holds leads (Refactory.Change.require found cause) tree fun value _ =>
    found = some value := by
  cases found with
  | none => rintro - _ _ ⟨⟩
  | some value => exact .pure rfl

end Change.Keeps

end Refactory
