import Refactory.Code.Substitution
import Refactory.Proofs.Code.Paths
import Refactory.Proofs.Tree.Replacing

/-!
# What substitutions build

A substitution builds a term of the term that it is given and of what it puts there, in the place of
the topmost nodes that pass its test (`Tree.IsReplaced`). The test does not change while a tree
grows, so it is that of the tree before the substitution. Copies are made of what is put in more
than one place, so that no node comes to stand in two.
-/
namespace Refactory

variable {tree : Tree}

/-- The kinds of expressions that bind tighter than any operator. -/
def Kind.isPrimary {one many : Type} : Kind one many → Bool
  | .ident _ | .member _ _ _ | .invoke _ _ | .index _ _ | .paren _ => true
  | kind => kind.isLiteral

theorem Kind.isPrimary_skeleton {one many : Type}
    (kind : Kind one many) : kind.skeleton.isPrimary = kind.isPrimary := by
  cases kind <;> rfl

/-- An expression as it can stand anywhere in another one, in parentheses unless it is primary. -/
def Shape.enclosed (shape : Shape) : Shape :=
    if shape.kind.isPrimary then shape else .node () (.paren (some shape))

/-- The element of a collection at a counter. -/
def Term.IsElement (model : Model) (counter : SymbolId) (collection term : Outline) : Prop :=
  ∃ receiver position, term.kind = .index (some receiver) [position] ∧
    model.symbolOf position.ref = some counter ∧
    SamePath model receiver collection

namespace Tree

open Term

/-- Whether the root of a term is primary is a matter of its shape. -/
theorem Shows.isPrimary {term : Outline} (shows : tree.Shows term) :
    tree.isPrimary term.ref = term.shape.kind.isPrimary := by
  have ofKind : tree.isPrimary term.ref = (tree.kind term.ref).isPrimary := by
    rw [Tree.isPrimary]
    cases tree.kind term.ref <;> rfl
  rw [ofKind, ← Kind.isPrimary_skeleton, shows.depicts.skeleton, ← term.skeleton_shape,
    Kind.isPrimary_skeleton]

/-- A term is made of an optional term by putting others in the place of the topmost parts that pass
a test. -/
def IsReplaced (test : Ref → Bool) (put : Outline → Outline → Prop) (old : Option Outline)
    (result : Ref)
    (outputs : List Outline) : Prop :=
  ∃ value moved, result = refOf (old.map (replacing test value moved)) ∧
    outputs = (old.map (replacing test value moved)).toList ∧
    ∀ term ∈ old, ArePut test put value term

/-- The rule that puts what an edit makes in the place of the nodes that pass a test. -/
def Rule.putting (test : Tree → Ref → Bool) (make : Nat → Ref → Edit Ref) : Rule :=
    fun count ref => do
  if test (← get) ref then return .become (← make count ref) else return .rebuild

/-- A rule that makes what it puts in the place of a node of terms from a supply, by a test that
depends on no more than the tree at the start. -/
theorem serves_of_makes {base : Tree} {supply : Nat → List Outline} {test : Tree → Ref → Bool}
    {make : Nat → Ref → Edit Ref} {put : Outline → Outline → Prop}
    (steady : ∀ old tree, base.Stands old → Keeps base tree → test tree old.ref = test base old.ref)
    (makes : ∀ old count tree, base.Stands old → Keeps base tree → tree.Stored →
      tree.StandsAll (supply count) → tree.parent old.ref = base.parent old.ref →
      Makes (make count old.ref) tree (supply count) fun result outputs =>
        ∃ new, result = new.ref ∧ outputs = new :: supply (count + 1) ∧ put old new) :
    (Rule.putting test make).Serves base supply (Puts (test base) put) := by
  intro old stands count tree keeps stored all above
  have same := steady old tree stands keeps
  cases isHit : test tree old.ref with
  | false =>
    rw [isHit] at same
    refine .inr ⟨?_, fun ref form children skeleton moves => ?_⟩
    · change (if test tree old.ref then _ else _ : Edit Verdict) tree = _
      rw [isHit]
      rfl
    · rcases old with ⟨place, kind⟩
      have below := map_ref_eq_iff (forall₂_parts children)
      refine .rebuilt ref same.symm children skeleton ?_
      rcases moves with ⟨here, unchanged⟩ | ⟨elsewhere, changed⟩
      · exact iff_of_true here
          (below.1 (congrArg (fun form => (parts form).map Term.ref) unchanged))
      · exact iff_of_false elsewhere (mt below.2 changed)
  | true =>
    rw [isHit] at same
    obtain ⟨_, _, after, made, builds, new, rfl, rfl, isPut⟩ :=
      makes old count tree stands keeps stored (StandsAll.cons_iff.1 all).2.1 above
    refine .inl ⟨new, after, ?_, builds, .replaced same.symm isPut (builds.ref_ne all)⟩
    change (if test tree old.ref then _ else _ : Edit Verdict) tree = _
    rw [isHit]
    change (Verdict.become (make count old.ref tree).1, (make count old.ref tree).2) = _
    rw [made]

/-- A copy has the shape of what it was made of. -/
theorem shape_of_records {copy term : Outline} (records : Records copy (term.map Place.span)) :
    copy.shape = term.shape := by
  rw [← shape_map Place.span copy, ← shape_map Place.span term, records]

/-- A fold makes a term of an optional term, where the rule leaves what is absent alone. -/
theorem fold_makes {base : Tree} {supply : Nat → List Outline} {rule : Rule} {old : Option Outline}
    {test : Ref → Bool}
    {put : Outline → Outline → Prop} (serves : rule.Serves base supply (Puts test put))
    (stored : base.Stored)
    (all : base.StandsAll (old.toList ++ supply 0))
    (absent : old = none → rule 0 none base = (.rebuild, base)) :
    Makes (fold rule (refOf old)) base (old.toList ++ supply 0) fun result outputs =>
      ∃ made, IsReplaced test put old result.1 made ∧ outputs = made ++ supply result.2 := by
  cases old with
  | none =>
    have folded : foldWithin rule (base.size + 1) none 0 base
        = rebuild (foldWithin rule base.size) none 0 base := foldWithin_of_rebuild (absent rfl)
    exact ⟨_, supply 0, base, folded, .refl all, [], ⟨id, id, rfl, rfl, by simp⟩, rfl⟩
  | some old =>
    obtain ⟨new, count, after, folded, builds, puts⟩ := fold_builds serves stored all
    obtain ⟨value, moved, rfl, arePut, -⟩ := puts.exists_replacing (all.each old (.head _)).once
    exact ⟨_, _, after, folded, builds, _,
      ⟨value, moved, rfl, rfl, fun _ same => Option.some.inj same ▸ arePut⟩, rfl⟩

/-- A term that stands has nodes of the same kinds while the tree grows. -/
theorem Keeps.kind_eq {base tree : Tree} {term : Outline} (keeps : Keeps base tree)
    (stands : base.Stands term) :
    tree.kind term.ref = base.kind term.ref := keeps.enlarges.kind_eq stands.shown.here

/-- The references to a referent stay. -/
theorem isAt_of_keeps {base tree : Tree} {term : Outline} (referent : Referent) (model : Model)
    (stands : base.Stands term) (keeps : Keeps base tree) :
    referent.isAt tree model term.ref = referent.isAt base model term.ref := by
  cases referent with
  | symbol id => rw [Referent.isAt, Referent.isAt, keeps.kind_eq stands]
  | synthesized reference => rfl

/-- What reads an element is an element. -/
theorem isElementAt_iff {model : Model} {counter : SymbolId} {collection term : Outline}
    (shown : term.All tree.Shows) (displays : tree.Displays collection) :
    tree.isElementAt model counter collection.ref term.ref = true ↔
    IsElement model counter collection term := by
  refine ⟨fun found => ?_, fun isElement => ?_⟩
  · rw [isElementAt] at found
    split at found
    · rename_i receiver arguments isIndex
      have depicts := shown.here.depicts
      rw [isIndex] at depicts
      obtain ⟨receiver, arguments, form, rfl, entries⟩ := depicts.index
      split at found
      · rename_i position single
        rw [single] at entries
        obtain ⟨argument, rfl, rfl⟩ := List.map_eq_singleton_iff.1 entries.symm
        obtain ⟨isCounter, isSame⟩ := Bool.and_eq_true_iff.1 found
        obtain ⟨receiver, rfl, same⟩ := (samePath_iff (fun inner inside => shown.child (by
          simp [Term.children, form, parts, Option.mem_def.1 inside])) displays).1 isSame
        exact ⟨receiver, argument, form, beq_iff_eq.1 isCounter, same⟩
      · cases found
    · cases found
  · obtain ⟨receiver, position, form, isCounter, same⟩ := isElement
    have depicts := shown.here.depicts
    rw [form] at depicts
    obtain ⟨range, isIndex, entries, -⟩ := depicts.of_index
    have isSame :=
      (@samePath_iff tree model collection (some receiver) (fun inner inside => shown.child (by
      simp [Term.children, form, parts, Option.mem_def.1 inside])) displays).2 ⟨receiver, rfl, same⟩
    rw [isElementAt, isIndex]
    simp only [entries, List.map_cons, List.map_nil, isCounter, beq_self_eq_true, Bool.true_and]
    exact isSame

/-- What reads an element stays the same while the tree grows. -/
theorem isElementAt_of_keeps {base tree : Tree} {collection term : Outline} (model : Model)
    (counter : SymbolId)
    (stands : base.Stands collection) (standsTerm : base.Stands term) (keeps : Keeps base tree) :
    tree.isElementAt model counter collection.ref term.ref =
    base.isElementAt model counter collection.ref term.ref := by
  rw [Bool.eq_iff_iff, isElementAt_iff (keeps.shown standsTerm.shown)
    ⟨keeps.shown stands.shown, stands.once⟩, isElementAt_iff standsTerm.shown stands.displays]

section

variable {base : Tree} (model : Model) {old : Option Outline}

/-- A rule that puts a name in the place of nodes takes nothing. -/
theorem putting_ident_serves {test : Tree → Ref → Bool} (name : String)
    (steady : ∀ old tree, base.Stands old → Keeps base tree →
      test tree old.ref = test base old.ref) :
    (Rule.putting test fun _ _ => Build.ident name).Serves base (fun _ => [])
      (Puts (test base) fun _ new => new.kind = .ident name) :=
  serves_of_makes steady fun _ _ _ _ _ stored _ _ =>
    (Build.ident_makes stored name).mono fun _ _ isNode => by
    obtain ⟨place, rfl, rfl⟩ := isNode
    exact ⟨_, rfl, rfl, rfl⟩

/-- Renaming references puts the name in their place. -/
theorem renameReferences_makes {referent : Referent} (name : String) (stored : base.Stored)
    (all : base.StandsAll old.toList)
    (absent : old = none → referent.isAt base model none = false) :
    Makes (renameReferences model referent name (refOf old)) base old.toList
      (IsReplaced (referent.isAt base model) (fun _ new => new.kind = .ident name) old) := by
  have serves := @putting_ident_serves base (referent.isAt · model ·) name
    fun _ _ stands keeps => isAt_of_keeps referent model stands keeps
  have all' : base.StandsAll (old.toList ++ []) := by simpa using all
  obtain ⟨⟨_, count⟩, _, after, folded, builds, made, isReplaced, rfl⟩ :=
    fold_makes serves stored all' fun none => by
      change (if referent.isAt base model Option.none then _ else _ : Edit Verdict) base = _
      rw [absent none]
      rfl
  refine ⟨_, made, after, ?_, by simpa using builds, isReplaced⟩
  exact congrArg (fun folded : (Ref × Nat) × Tree => (folded.1.1, folded.2)) folded

/-- An element of a copy of a collection, at a place that has a name. -/
def IsElementOf (collection : Outline) (counter : String) (_ new : Outline) : Prop :=
  ∃ copy position, new.kind = .index (some copy) [position] ∧ copy.shape = collection.shape ∧
    position.kind = .ident counter

/-- A rule that puts elements of a collection in the place of nodes takes nothing, because it copies
the collection. -/
theorem putting_element_serves {test : Tree → Ref → Bool} {collection : Outline} (counter : String)
    (steady : ∀ old tree, base.Stands old → Keeps base tree → test tree old.ref = test base old.ref)
    (stands : base.Stands collection) : (Rule.putting test fun _ _ => do
        let receiver ← duplicate collection.ref
        let position ← Build.ident counter
        Build.index receiver position).Serves base (fun _ => [])
      (Puts (test base) (IsElementOf collection counter)) := by
  refine serves_of_makes steady fun _ _ tree _ keeps stored _ _ => ?_
  refine (Build.duplicate_makes stored (keeps.shown stands.shown) stands.once).bind_new
    stored .nil ?_
  rintro _ _ middle ⟨copy, rfl, rfl, records⟩ - stored all
  refine (Build.ident_makes stored counter).bind_new stored all ?_
  rintro _ _ after ⟨place, rfl, rfl⟩ - stored all
  have made := @Build.index_makes after (some copy) (.node place (.ident counter)) stored
    (all.perm (.swap _ _ _))
  refine (made.perm (.swap _ _ _)).mono fun _ _ isNode => ?_
  obtain ⟨place, rfl, rfl⟩ := isNode
  exact ⟨_, rfl, rfl, copy, _, rfl, shape_of_records records, rfl⟩

/-- Putting elements of a collection in the place of a loop variable makes a term of the loop body;
the collection is copied. -/
theorem indexElements_makes {element : SymbolId} {collection : Outline} (counter : String)
    (stored : base.Stored) (all : base.StandsAll old.toList) (stands : base.Stands collection) :
    Makes (indexElements model element collection.ref counter (refOf old)) base old.toList
      (IsReplaced ((Referent.symbol element).isAt base model)
        (IsElementOf collection counter) old) := by
  have serves :=
    @putting_element_serves base ((Referent.symbol element).isAt · model ·) collection counter
      (fun _ _ stands keeps => isAt_of_keeps _ model stands keeps) stands
  have all' : base.StandsAll (old.toList ++ []) := by simpa using all
  obtain ⟨⟨_, count⟩, _, after, folded, builds, made, isReplaced, rfl⟩ :=
    fold_makes serves stored all' fun _ => rfl
  refine ⟨_, made, after, ?_, by simpa using builds, isReplaced⟩
  exact congrArg (fun folded : (Ref × Nat) × Tree => (folded.1.1, folded.2)) folded

/-- Putting a name in the place of elements of a collection makes a term of the loop body. -/
theorem nameElements_makes {counter : SymbolId} {collection : Outline} (name : String)
    (stored : base.Stored)
    (all : base.StandsAll old.toList) (stands : base.Stands collection) :
    Makes (nameElements model counter collection.ref name (refOf old)) base old.toList
    fun result outputs => IsReplaced (base.isElementAt model counter collection.ref)
      (fun _ new => new.kind = .ident name) old result.1 outputs := by
  have serves := @putting_ident_serves base (·.isElementAt model counter collection.ref ·) name
    fun _ _ standsTerm keeps => isElementAt_of_keeps model counter stands standsTerm keeps
  have all' : base.StandsAll (old.toList ++ []) := by simpa using all
  obtain ⟨result, _, after, folded, builds, made, isReplaced, rfl⟩ :=
    fold_makes serves stored all' fun _ => rfl
  exact ⟨result, made, after, folded, by simpa using builds, isReplaced⟩

/-- What is put in the place of a reference: the replacement itself the first time and copies of it
later, in parentheses where they are wanted. -/
def putFor (ref replacement : Ref) (replaced : Nat) (current : Ref) : Edit Ref := do
  let value ← if replaced = 0 then pure replacement else duplicate replacement
  let tree ← get
  if current = ref || tree.isArgumentValue current || tree.isPrimary value then return value
  else Build.paren value

/-- The replacement serves for the first reference. -/
def supplyOf (replacement : Outline) : Nat → List Outline
  | 0 => [replacement]
  | _ + 1 => []

/-- What stands in the place of a reference in a term has the shape of the replacement, in
parentheses unless the reference is the whole term or the value of an argument or the replacement is
primary. -/
def IsPutFor (base : Tree) (whole : Ref) (replacement : Shape) (old new : Outline) : Prop :=
  new.shape = if old.ref = whole ∨ base.isArgumentValue old.ref = true then replacement
    else replacement.enclosed

/-- A node is the value of an argument as long as its link and the nodes stay. -/
theorem isArgumentValue_of_keeps {ref : Ref} (stored : base.Stored) (keeps : Keeps base tree)
    (above : tree.parent ref = base.parent ref) :
    tree.isArgumentValue ref = base.isArgumentValue ref := by
  rw [isArgumentValue, isArgumentValue, above]
  cases isParent : base.parent ref with
  | none => rfl
  | some number =>
    have hasRef : base.HasRef (some number) := by
      cases ref with
      | none => cases isParent
      | some other =>
        rw [Tree.parent, Option.getD_eq_iff] at isParent
        obtain found | ⟨-, ⟨⟩⟩ := isParent
        exact stored.links _ (Array.mem_of_getElem? found) (Option.some_ne_none _)
    obtain ⟨moved, frame⟩ := keeps
    dsimp only
    rw [frame.kind_eq hasRef List.not_mem_nil]

theorem putFor_makes {whole replacement current : Outline} {tree : Tree} (count : Nat)
    (storedBase : base.Stored)
    (stands : base.Stands replacement) (standsCurrent : base.Stands current)
    (keeps : Keeps base tree) (stored : tree.Stored)
    (all : tree.StandsAll (supplyOf replacement count))
    (above : tree.parent current.ref = base.parent current.ref) :
    Makes (putFor whole.ref replacement.ref count current.ref) tree (supplyOf replacement count)
      fun result outputs => ∃ new, result = new.ref ∧ outputs = new ::
      supplyOf replacement (count + 1) ∧ IsPutFor base whole.ref replacement.shape current new := by
  have wrapped {value : Outline} {after : Tree} (stored : after.Stored)
      (all : after.StandsAll [value])
      (same : value.shape = replacement.shape)
      (unmoved : after.isArgumentValue current.ref = base.isArgumentValue current.ref) : Makes (do
        let tree ← get
        if current.ref = whole.ref || tree.isArgumentValue current.ref || tree.isPrimary value.ref
          then return value.ref
        else Build.paren value.ref) after [value] fun result outputs => ∃ new, result = new.ref ∧
          outputs = [new] ∧ IsPutFor base whole.ref replacement.shape current new := by
    change Makes
      (if current.ref = whole.ref || after.isArgumentValue current.ref || after.isPrimary value.ref
      then pure value.ref else Build.paren value.ref) after [value] _
    rw [unmoved, (all.each value (.head _)).shown.here.isPrimary, same]
    split
    · rename_i bare
      simp only [Bool.or_eq_true, decide_eq_true_eq] at bare
      refine .pure all ⟨value, rfl, rfl, ?_⟩
      rw [IsPutFor, same]
      split
      · rfl
      · rename_i other
        rw [Shape.enclosed, if_pos (bare.resolve_left other)]
    · rename_i wanted
      simp only [Bool.or_eq_true, decide_eq_true_eq, not_or] at wanted
      refine (@Build.paren_makes after (some value) stored all).mono fun _ _ isNode => ?_
      obtain ⟨place, rfl, rfl⟩ := isNode
      refine ⟨_, rfl, rfl, ?_⟩
      rw [IsPutFor, if_neg (not_or.2 wanted.1), Shape.enclosed, if_neg wanted.2, ← same]
      rfl
  cases count with
  | zero => exact wrapped stored all rfl (isArgumentValue_of_keeps storedBase keeps above)
  | succ count =>
    obtain ⟨copy, middle, copied, builds, records⟩ :=
      duplicate_copies stored (keeps.shown stands.shown) stands.once
    obtain ⟨number, within, place⟩ := (keeps.shown standsCurrent.shown).here.hasRef
    have unmoved : middle.parent current.ref = tree.parent current.ref := by
      rw [place]
      exact builds.frame.parents number within List.not_mem_nil
    obtain ⟨result, outputs, after, edited, buildsNext, isNew⟩ :=
      wrapped (builds.frame.stored stored) builds.stands (shape_of_records records)
        (isArgumentValue_of_keeps storedBase (keeps.trans builds.keeps) (unmoved.trans above))
    refine ⟨result, outputs, after, ?_, builds.trans buildsNext, isNew⟩
    rw [← edited]
    change (fun made : Ref × Tree => (do
      let tree ← get
      if current.ref
        = whole.ref || tree.isArgumentValue current.ref || tree.isPrimary made.1 then return made.1
      else Build.paren made.1 : Edit Ref) made.2) (duplicate replacement.ref tree) = _
    rw [copied]

/-- Putting an expression in the place of references makes a term of both. -/
theorem substituteReferences_makes {referent : Referent} {replacement term : Outline}
    (stored : base.Stored)
    (all : base.StandsAll [term, replacement]) :
    Makes (substituteReferences model referent replacement.ref term.ref) base [term, replacement]
      (IsReplaced (referent.isAt base model) (IsPutFor base term.ref replacement.shape)
        (some term)) := by
  have standsReplacement := all.each replacement (by simp)
  have serves := @serves_of_makes base (supplyOf replacement) (referent.isAt · model ·)
    (putFor term.ref replacement.ref) (IsPutFor base term.ref replacement.shape)
    (fun _ _ stands keeps => isAt_of_keeps referent model stands keeps)
    fun _ count _ stands keeps storedTree all above =>
      putFor_makes count stored standsReplacement stands keeps storedTree all above
  obtain ⟨⟨_, count⟩, _, after, folded, builds, made, isReplaced, rfl⟩ :=
    @fold_makes base _ _ (some term) _ _ serves stored all (by simp)
  refine ⟨_, made, after, ?_, builds.sublist (by simp), isReplaced⟩
  have same : (fun replaced current => do
      if referent.isAt (← get) model current then
        let value ← if replaced = 0 then pure replacement.ref else duplicate replacement.ref
        let tree ← get
        if current = term.ref || tree.isArgumentValue current || tree.isPrimary value then
          return .become value
        else
          return .become (← Build.paren value)
      else
        return .rebuild : Rule)
          = Rule.putting (referent.isAt · model ·) (putFor term.ref replacement.ref) := by
    funext count current
    simp only [Rule.putting, putFor]
    congr 1
    funext tree
    split
    · by_cases first : count = 0
      all_goals
        simp only [first, if_true, if_false, bind_assoc]
        congr 1
        funext value
        congr 1
        funext tree
        split <;> rfl
    · rfl
  rw [← same] at folded
  exact congrArg (fun folded : (Ref × Nat) × Tree => (folded.1.1, folded.2)) folded

end

end Tree

end Refactory
