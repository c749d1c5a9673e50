import Refactory.Proofs.Tree.Renaming
import Refactory.Proofs.Tree.Rereading

/-!
# Factoring conjunctions

The operands of a conjunction are read off its shape (`Term.conjuncts`). Joining predicates gives a
conjunction of operands that hold together without parentheses or stand in them
(`Abstraction.conjoin_shows`), and taking it apart again gives one factor for each predicate, in
order (`Abstraction.conjuncts_conjoin`): what does not count as one operand was put in parentheses,
and of an operand in parentheses just the one pair is dropped.
-/
namespace Refactory

/-- The kinds of expressions that need no parentheses as operands of a conjunction. -/
def Kind.isAtomic {one many : Type} : Kind one many → Bool
  | .unary op _ => op == .not
  | .binary op _ _ => op.isComparison
  | .ident _ | .member _ _ _ | .invoke _ _ | .index _ _ | .paren _ => true
  | kind => kind.isLiteral

theorem Kind.isAtomic_skeleton {one many : Type}
    (kind : Kind one many) : kind.skeleton.isAtomic = kind.isAtomic := by
  cases kind <;> rfl

/-- Lists that are mapped to one list correspond one by one. -/
theorem forall₂_of_map_eq {α β γ : Type} {f : α → γ} {g : β → γ} {left : List α} {right : List β}
    (same : left.map f = right.map g) :
    List.Forall₂ (fun here there => g there = f here) left right := by
  rw [← List.forall₂_map_left_iff (R := fun here there => g there = here), same,
    List.forall₂_map_left_iff, List.forall₂_same]
  exact fun _ _ => rfl

namespace Term

variable {α : Type}

mutual

/-- The operands of a conjunction, left to right; an operand in parentheses loses them and is not
taken apart. -/
def conjuncts : Term α → List (Option (Term α))
  | .node _ (.binary .and left right) => conjunctsOf left ++ conjunctsOf right
  | .node _ (.paren inner) => [inner]
  | term => [some term]

/-- The operands of an optional conjunction. -/
def conjunctsOf : Option (Term α) → List (Option (Term α))
  | none => [none]
  | some term => conjuncts term

end

theorem length_conjuncts_pos (term : Term α) : 0 < term.conjuncts.length := by
  have nonempty (side : Option (Term α)) (below : ∀ term ∈ side, 0 < term.conjuncts.length) :
      0 < (conjunctsOf side).length := by
    cases side with
    | none => exact Nat.one_pos
    | some term => exact below term rfl
  induction term using Term.induction with
  | step note form ih =>
    rw [conjuncts.eq_def]
    split
    · rename_i left right same
      cases same
      rw [List.length_append]
      exact Nat.add_pos_left (nonempty left fun term held => ih term (by simp_all [parts])) _
    · exact Nat.one_pos
    · exact Nat.one_pos

theorem length_conjunctsOf_pos (side : Option (Term α)) : 0 < (conjunctsOf side).length := by
  cases side with
  | none => exact Nat.one_pos
  | some term => exact term.length_conjuncts_pos

/-- A conjunction has two operands at least. -/
theorem two_le_length_conjuncts {term : Term α} {left right : Option (Term α)}
    (isAnd : term.kind = .binary .and left right) :
    2 ≤ term.conjuncts.length := by
  rcases term with ⟨note, form⟩
  obtain rfl : form = _ := isAnd
  rw [conjuncts, List.length_append]
  exact Nat.add_le_add (length_conjunctsOf_pos left) (length_conjunctsOf_pos right)

/-- There is at most one operand more than there are nodes. -/
theorem length_conjuncts_le (term : Term α) : term.conjuncts.length ≤ term.subterms.length + 1 := by
  have optional (side : Option (Term α))
      (below : ∀ term ∈ side, term.conjuncts.length ≤ term.subterms.length + 1) :
      (conjunctsOf side).length ≤ (side.toList.flatMap subterms).length + 1 := by
    cases side with
    | none => exact Nat.le_refl _
    | some term => simpa [conjunctsOf] using below term rfl
  induction term using Term.induction with
  | step note form ih =>
    rw [conjuncts.eq_def]
    split
    · rename_i left right same
      cases same
      have leftLength := optional left fun term held => ih term (by simp_all [parts])
      have rightLength := optional right fun term held => ih term (by simp_all [parts])
      simp only [subterms_node, parts, Kind.slots, List.flatMap_cons, List.flatMap_nil, Slot.terms,
        List.append_nil, List.flatMap_append, List.length_cons, List.length_append]
      omega
    · exact Nat.le_add_left _ _
    · exact Nat.le_add_left _ _

/-- The operands of a conjunction are parts of it. -/
theorem conjuncts_subset {term operand : Term α} (member : some operand ∈ term.conjuncts) :
    operand ∈ term.subterms := by
  have within {whole : Term α} {side : Option (Term α)}
      (held : ∀ term ∈ side, term ∈ whole.children)
      (below : ∀ term ∈ side, some operand ∈ term.conjuncts → operand ∈ term.subterms)
      (member : some operand ∈ conjunctsOf side) : operand ∈ whole.subterms := by
    cases side with
    | none => cases List.mem_singleton.1 member
    | some term => exact mem_subterms_of_child (held term rfl) (below term rfl member)
  induction term using Term.induction with
  | step note form ih =>
    rw [conjuncts.eq_def] at member
    split at member
    · rename_i left right same
      cases same
      have heldLeft : ∀ term ∈ left, term ∈ parts (.binary .and left right) := by
        simp +contextual [parts]
      have heldRight : ∀ term ∈ right, term ∈ parts (.binary .and left right) := by
        simp +contextual [parts]
      rcases List.mem_append.1 member with member | member
      · exact within heldLeft (fun term held => ih term (heldLeft term held)) member
      · exact within heldRight (fun term held => ih term (heldRight term held)) member
    · rename_i inner same
      cases same
      obtain rfl := List.mem_singleton.1 member
      exact child_mem_subterms (by simp [children, kind, parts])
    · cases List.mem_singleton.1 member
      exact self_mem_subterms _

/-- The shapes of the operands of a conjunction are the operands of its shape. -/
theorem conjuncts_shape
    (term : Term α) : term.shape.conjuncts = term.conjuncts.map (Option.map shape) := by
  have optional (side : Option (Term α))
      (below : ∀ term ∈ side, term.shape.conjuncts = term.conjuncts.map (Option.map shape)) :
      conjunctsOf (side.map shape) = (conjunctsOf side).map (Option.map shape) := by
    cases side with
    | none => rfl
    | some term => exact below term rfl
  induction term using Term.induction with
  | step note form ih =>
    rw [shape_node]
    cases form
    case binary op left right =>
      cases op
      case and =>
        rw [mapForm, mapSome_unit, mapSome_unit, conjuncts, conjuncts, List.map_append,
          optional left fun term held => ih term (by simp_all [parts]),
          optional right fun term held => ih term (by simp_all [parts])]
      all_goals rfl
    case paren inner =>
      rw [mapForm, mapSome_unit]
      rfl
    all_goals rfl

end Term

namespace Shape

/-- What is left of a shape without one pair of parentheses around it. -/
def unwrapped : Shape → Option Shape
  | .node _ (.paren inner) => inner
  | shape => some shape

theorem exists_unwrapped {shape : Shape} (whole : shape.kind ≠ .paren none) :
    ∃ inner, unwrapped shape = some inner := by
  rcases shape with ⟨⟨⟩, form⟩
  cases form
  case paren inner =>
    cases inner with
    | none => exact absurd rfl whole
    | some inner => exact ⟨inner, rfl⟩
  all_goals exact ⟨_, rfl⟩

/-- What is in parentheses has no more parts. -/
theorem length_unwrapped_le {shape inner : Shape} (isInner : unwrapped shape = some inner) :
    inner.subterms.length ≤ shape.subterms.length := by
  rw [unwrapped.eq_def] at isInner
  split at isInner
  · subst isInner
    exact (Tree.length_subterms_lt (by simp [Term.children, Term.kind, Term.parts])).le
  · cases isInner
    exact Nat.le_refl _

/-- The operand of a conjunction that a shape gives: an expression that holds together is one as it
stands. -/
def operand (shape : Shape) : Shape :=
    if shape.kind.isAtomic then shape else .node () (.paren (some shape))

/-- The conjunction of operands, grouped to the left. -/
def conjunction (first : Shape) (others : List Shape) : Shape :=
  others.foldl (fun joined operand => .node () (.binary .and (some joined) (some operand))) first

/-- An operand is one conjunct, without one pair of parentheses. -/
theorem conjuncts_operand (shape : Shape) : (operand shape).conjuncts = [unwrapped shape] := by
  rcases shape with ⟨⟨⟩, form⟩
  rw [operand, Term.kind]
  cases form
  case binary op left right => cases op <;> rfl
  case unary op operand => cases op <;> rfl
  all_goals rfl

/-- The conjuncts of a conjunction are those of its first operand and of the others. -/
theorem conjuncts_conjunction (first : Shape) (others : List Shape) :
    (conjunction first others).conjuncts = first.conjuncts ++ others.flatMap Term.conjuncts := by
  induction others generalizing first with
  | nil => simp [conjunction]
  | cons operand others ih =>
    rw [conjunction, List.foldl_cons, ← conjunction, ih, List.flatMap_cons, ← List.append_assoc]
    rfl

/-- A conjunction of two or more operands is one. -/
theorem exists_conjunction (first : Shape) {others : List Shape} (several : others ≠ []) :
    ∃ left right, conjunction first others = .node () (.binary .and (some left) (some right)) := by
  obtain ⟨front, last, rfl⟩ := (List.eq_nil_or_concat others).resolve_left several
  refine ⟨conjunction first front, last, ?_⟩
  rw [conjunction, List.concat_eq_append, List.foldl_append]
  rfl

/-- What is an operand of a conjunction without a pair of parentheses too many: it holds together
and stands in none, or it stands in parentheses and does not hold together without them. -/
def IsFactor (shape : Shape) : Prop :=
  shape.kind.isAtomic = true ∧ (∀ inner, shape.kind ≠ .paren inner) ∨
    ∃ inner, shape.kind = .paren (some inner) ∧ inner.kind.isAtomic = false

/-- Such an operand is one conjunct, which gives the operand back. -/
theorem IsFactor.exists_operand {shape : Shape} (isFactor : shape.IsFactor) :
    ∃ inner, shape.conjuncts = [some inner] ∧ operand inner = shape := by
  rcases shape with ⟨⟨⟩, form⟩
  rcases isFactor with ⟨isAtomic, bare⟩ | ⟨inner, isParen, noAtom⟩
  · refine ⟨.node () form, ?_, if_pos isAtomic⟩
    cases form
    case paren inner => exact absurd rfl (bare inner)
    case binary op left right => cases op <;> first | rfl | cases isAtomic
    all_goals rfl
  · obtain rfl : form = .paren (some inner) := isParen
    exact ⟨inner, rfl, if_neg (noAtom ▸ Bool.false_ne_true)⟩

end Shape

/-- The conjuncts of a conjunction of such operands give the operands back. -/
theorem Term.exists_operands {α : Type} {term : Term α} {first : Shape} {others : List Shape}
    (isConjunction : term.shape = Shape.conjunction first others)
    (factors : ∀ factor ∈ first :: others, factor.IsFactor) :
    ∃ operands : List (Term α), term.conjuncts = operands.map some ∧
      operands.map (fun operand => Shape.operand operand.shape) = first :: others := by
  have conjuncts := term.conjuncts_shape
  rw [isConjunction, Shape.conjuncts_conjunction, ← List.flatMap_cons] at conjuncts
  generalize first :: others = shapes at conjuncts factors ⊢
  generalize term.conjuncts = found at conjuncts
  induction shapes generalizing found with
  | nil => exact ⟨[], List.map_eq_nil_iff.1 conjuncts.symm, rfl⟩
  | cons factor shapes ih =>
    obtain ⟨inner, isInner, isFactor⟩ := (factors factor (.head _)).exists_operand
    rw [List.flatMap_cons, isInner, List.singleton_append] at conjuncts
    obtain ⟨operand, found, rfl, isOperand, rest⟩ := List.map_eq_cons_iff.1 conjuncts.symm
    obtain ⟨operand, rfl, rfl⟩ := Option.map_eq_some_iff.1 isOperand
    obtain ⟨operands, rfl, same⟩ :=
      ih (fun other member => factors other (.tail _ member)) found rest.symm
    exact ⟨operand :: operands, rfl, by rw [List.map_cons, isFactor, same]⟩

namespace Tree

open Term

variable {base tree : Tree} {term : Outline}

theorem isAtomic_eq (tree : Tree) (ref : Ref) : tree.isAtomic ref = (tree.kind ref).isAtomic := by
  rw [Tree.isAtomic]
  unfold isPrimary
  cases tree.kind ref <;> rfl

/-- Whether the root of a term needs no parentheses is a matter of its shape. -/
theorem Shows.isAtomic
    (shows : tree.Shows term) : tree.isAtomic term.ref = term.shape.kind.isAtomic := by
  rw [isAtomic_eq, ← Kind.isAtomic_skeleton, shows.depicts.skeleton, ← term.skeleton_shape,
    Kind.isAtomic_skeleton]

/-- There are no parentheses to drop around a term that does not stand in them. -/
theorem Shows.stripParens_of_kind (shows : tree.Shows term)
    (bare : ∀ inner, term.shape.kind ≠ .paren inner) :
    tree.stripParens term.ref = term.ref := by
  rw [stripParens, depthBound, stripParensWithin]
  split
  · rename_i inner isParen
    have skeleton := term.skeleton_shape.trans shows.depicts.skeleton.symm
    rw [isParen] at skeleton
    generalize term.shape.kind = kind at bare skeleton
    cases kind <;> cases skeleton
    exact absurd rfl (bare _)
  · rfl

/-- The operands found in a tree are those of the term that it shows, where the depth suffices. -/
theorem conjunctsWithin_eq {side : Option Outline} (shown : ∀ term ∈ side, term.All tree.Shows)
    {bound : Nat}
    (enough : (conjunctsOf side).length ≤ bound) :
    tree.conjunctsWithin bound (refOf side) = (conjunctsOf side).map refOf := by
  induction bound generalizing side with
  | zero =>
    cases side with
    | none => cases enough
    | some term => exact absurd enough (Nat.not_le_of_gt term.length_conjuncts_pos)
  | succ bound ih =>
    rcases side with _ | ⟨place, form⟩
    · rfl
    have shown := shown _ rfl
    have depicts : tree.Depicts (tree.kind place.ref) form := shown.here.depicts
    have below {side : Option Outline} (held : ∀ term ∈ side, term ∈ parts form) :
        ∀ term ∈ side, term.All tree.Shows := fun term member => shown.child (held term member)
    rw [conjunctsWithin, refOf_some, ref_node]
    split
    · rename_i left right isAnd
      obtain ⟨left, right, rfl, rfl, rfl⟩ := (isAnd ▸ depicts).binary
      rw [conjunctsOf, Term.conjuncts, List.length_append] at enough
      have someLeft := length_conjunctsOf_pos left
      have someRight := length_conjunctsOf_pos right
      rw [ih (below (by simp +contextual [parts])) (by omega),
        ih (below (by simp +contextual [parts])) (by omega), ← List.map_append]
      rfl
    · rename_i inner isParen
      obtain ⟨inner, rfl, rfl⟩ := (isParen ▸ depicts).paren
      rfl
    · rename_i noAnd noParen
      have one : (Term.node place form).conjuncts = [some (Term.node place form)] := by
        rw [Term.conjuncts.eq_def]
        split
        · rename_i left right same
          cases same
          have skeleton := depicts.skeleton
          generalize tree.kind place.ref = kind at noAnd skeleton
          cases kind <;> cases skeleton
          exact absurd rfl (noAnd _ _)
        · rename_i inner same
          cases same
          have skeleton := depicts.skeleton
          generalize tree.kind place.ref = kind at noParen skeleton
          cases kind <;> cases skeleton
          exact absurd rfl (noParen _)
        · rfl
      rw [conjunctsOf, one]
      rfl

/-- Renaming the references of a referent renames a term that is stored in a smaller tree. -/
theorem renameReferences_renames {model : Model} {referent : Referent} {body : Outline}
    (name : String)
    (displays : base.Displays body) (enlarged : base.Enlarges tree) : ∃ new after,
      renameReferences model referent name body.ref tree = (new.ref, after) ∧ Enlarges tree after ∧
        new.All after.Shows ∧ Renames (referent.isAt base model) name body new := by
  have names : Rule.Names (fun _ ref => do
      if referent.isAt (← get) model ref then return .become (← Build.ident name)
        else return .rebuild)
      base (referent.isAt base model) name body := by
    intro part inside count tree enlarged
    have same : referent.isAt tree model part.ref = referent.isAt base model part.ref := by
      cases referent with
      | symbol id => rw [Referent.isAt, Referent.isAt,
        enlarged.kind_eq (all_iff_subterms.1 displays.shown part inside)]
      | synthesized reference => rfl
    change (if referent.isAt tree model part.ref then _ else _ : Edit Verdict) tree = _
    rw [same]
    split <;> rfl
  obtain ⟨new, after, folded, others⟩ := fold_renames names displays enlarged
  exact ⟨new, after,
    congrArg (fun folded : (Ref × Nat) × Tree => (folded.1.1, folded.2)) folded, others⟩

end Tree

namespace Abstraction

open Term Refactory.Tree

/-- The body of a function is a term that a tree shows. -/
def Bears (function : Abstraction) (tree : Tree) (body : Outline) : Prop :=
  function.body = body.ref ∧ tree.Displays body

/-- The shape of the body of a function with its parameter renamed. -/
def bodyShape (function : Abstraction) (tree : Tree) (model : Model) (name : String) : Shape :=
  (tree.outline function.body).shapeNaming (function.referent.isAt tree model) name

/-- A body that is no pair of parentheses around nothing gives a factor, which is no larger than the
body. -/
theorem Bears.unwrapped_bodyShape {function : Abstraction} {tree : Tree} {body : Outline}
    (bears : function.Bears tree body) (model : Model) (name : String)
    (whole : body.kind ≠ .paren none) :
    ∃ inner, Shape.unwrapped (function.bodyShape tree model name) = some inner ∧
      inner.subterms.length ≤ body.subterms.length := by
  obtain ⟨isBody, displays⟩ := bears
  have bound := @length_shapeNaming_le (function.referent.isAt tree model) name body
  have isShape : function.bodyShape tree model name
      = body.shapeNaming (function.referent.isAt tree model) name := by
    rw [bodyShape, isBody, displays.outline]
  have some : (body.shapeNaming (function.referent.isAt tree model) name).kind ≠ .paren none := by
    rcases body with ⟨place, form⟩
    rw [shapeNaming_node]
    split
    · exact nofun
    · intro isParen
      cases form
      case paren inner =>
        have absent : inner.map (shapeNaming _ _) = none := Kind.paren.inj isParen
        exact whole (congrArg Kind.paren (Option.map_eq_none_iff.1 absent))
      all_goals cases isParen
  rw [isShape]
  obtain ⟨inner, isInner⟩ := Shape.exists_unwrapped some
  exact ⟨inner, isInner, Nat.le_trans (Shape.length_unwrapped_le isInner) bound⟩

variable {base tree : Tree} {model : Model} {name : String}

/-- The operand for a predicate shows its body with the parameter renamed, in parentheses where they
are wanted. -/
theorem operand_shows {predicate : Abstraction} {body : Outline} (bears : predicate.Bears base body)
    (enlarged : base.Enlarges tree) : ∃ (operand : Outline) (after : Tree),
      predicate.operand model name tree = (operand.ref, after) ∧ Enlarges tree after ∧
      operand.All after.Shows ∧
        operand.shape = Shape.operand (predicate.bodyShape base model name) := by
  obtain ⟨isBody, displays⟩ := bears
  obtain ⟨new, middle, renamed, enlarges, shown, renames⟩ :=
    @renameReferences_renames base tree model predicate.referent body name displays enlarged
  have shape : new.shape = predicate.bodyShape base model name := by
    rw [bodyShape, isBody, displays.outline, renames.shape_eq]
  have made : predicate.operand model name tree
      = (if middle.isAtomic new.ref then pure new.ref
        else Build.paren new.ref : Edit Ref) middle := by
    rw [Abstraction.operand, isBody, Edit.bind_apply, renamed]
    rfl
  rw [shown.here.isAtomic, shape] at made
  rw [← shape, Shape.operand, shape]
  split at made
  · exact ⟨new, middle, made, enlarges, shown, by simp [*]⟩
  · obtain ⟨-, adds, -, shownParen⟩ := @alloc_shows middle (.paren new.ref) (.paren (some new))
      ⟨.cons ⟨rfl, by simpa using shown.here.hasRef.ne_none⟩ .nil, rfl⟩
      (by simpa [parts] using shown) .nowhere
    exact ⟨.node ⟨some middle.size, .nowhere⟩ (.paren (some new)), _, made, enlarges.trans adds,
      shownParen, by simp [*]⟩

/-- Joining more operands to a conjunction shows the conjunction of all of them. -/
theorem conjoinOnto_shows {predicates : List Abstraction}
    (borne : ∀ predicate ∈ predicates, ∃ body, predicate.Bears base body)
    {joined : Outline} (enlarged : base.Enlarges tree) (shown : joined.All tree.Shows) :
    ∃ (whole : Outline) (after : Tree),
      conjoinOnto model name joined.ref predicates tree = (whole.ref, after) ∧ Enlarges tree after ∧
        tree.size + predicates.length ≤ after.size ∧ whole.All after.Shows ∧
        whole.shape = Shape.conjunction joined.shape (predicates.map fun predicate =>
            Shape.operand (predicate.bodyShape base model name)) := by
  induction predicates generalizing joined tree with
  | nil => exact ⟨joined, tree, rfl, .refl tree, Nat.le_refl _, shown, rfl⟩
  | cons predicate predicates ih =>
    obtain ⟨body, bears⟩ := borne predicate (.head _)
    obtain ⟨operand, middle, made, enlarges, shownOperand, shape⟩ :=
      @operand_shows base tree model name _ _ bears enlarged
    have shownJoined := enlarges.shown shown
    obtain ⟨-, adds, more, shownBoth⟩ := @alloc_shows middle (.binary .and joined.ref operand.ref)
      (.binary .and (some joined) (some operand))
        ⟨.cons ⟨rfl, by simpa using shown.here.hasRef.ne_none⟩
          (.cons ⟨rfl, by simpa using shownOperand.here.hasRef.ne_none⟩ .nil), rfl⟩
        (by simpa [parts] using ⟨shownJoined, shownOperand⟩) .nowhere
    obtain ⟨whole, after, madeOthers, enlargesOthers, enough, shownWhole, shapeWhole⟩ :=
      ih (fun other member => borne other (.tail _ member))
        (enlarged.trans (enlarges.trans adds)) shownBoth
    refine ⟨whole, after, ?_, (enlarges.trans adds).trans enlargesOthers, ?_, shownWhole, ?_⟩
    · rw [conjoinOnto, Edit.bind_apply, made]
      exact madeOthers
    · have := enlarges.size
      rw [List.length_cons]
      omega
    · rw [shapeWhole, shape_node, List.map_cons, ← shape]
      rfl

/-- Joining predicates shows the conjunction of their operands. -/
theorem conjoin_shows {first : Abstraction} {others : List Abstraction}
    (borne : ∀ predicate ∈ first :: others, ∃ body, predicate.Bears tree body) :
    ∃ (whole : Outline) (after : Tree),
      conjoin model name first others tree = (whole.ref, after) ∧ Enlarges tree after ∧
        tree.size + others.length ≤ after.size ∧ whole.All after.Shows ∧
        whole.shape = Shape.conjunction (Shape.operand (first.bodyShape tree model name))
          (others.map fun predicate => Shape.operand (predicate.bodyShape tree model name)) := by
  obtain ⟨body, bears⟩ := borne first (.head _)
  obtain ⟨operand, middle, made, enlarges, shown, shape⟩ :=
    @operand_shows tree tree model name _ _ bears (.refl tree)
  obtain ⟨whole, after, madeOthers, enlargesOthers, enough, shownWhole, shapeWhole⟩ :=
    @conjoinOnto_shows tree middle model name others
      (fun other member => borne other (.tail _ member)) operand enlarges shown
  refine ⟨whole, after, ?_, enlarges.trans enlargesOthers, Nat.le_trans ?_ enough, shownWhole,
    shape ▸ shapeWhole⟩
  · rw [conjoin, Edit.bind_apply, made]
    exact madeOthers
  · exact Nat.add_le_add_right enlarges.size _

/-- The shape of a conjunction has one factor for each predicate. -/
theorem conjuncts_conjunction_map (first : Abstraction) (others : List Abstraction) :
    (Shape.conjunction (Shape.operand (first.bodyShape tree model name))
      (others.map fun predicate => Shape.operand (predicate.bodyShape tree model name))).conjuncts
      = (first :: others).map fun predicate =>
        Shape.unwrapped (predicate.bodyShape tree model name) := by
  simp only [Shape.conjuncts_conjunction, Shape.conjuncts_operand, List.flatMap_map, List.map_cons,
    List.singleton_append, ← List.map_eq_flatMap]

/-- Taking the conjunction of two or more predicates apart gives one factor for each of them, in
order: its body with the parameter renamed, without one pair of parentheses where the body stands in
parentheses. A predicate that is a conjunction itself comes back whole. -/
theorem conjuncts_conjoin {first : Abstraction} {others : List Abstraction} (several : others ≠ [])
    (borne : ∀ predicate ∈ first :: others, ∃ body, predicate.Bears tree body ∧
      body.kind ≠ .paren none) :
    List.Forall₂ (fun predicate factor =>
        some ((conjoin model name first others tree).2.outline factor).shape
          = Shape.unwrapped (predicate.bodyShape tree model name))
      (first :: others) ((conjoin model name first others tree).2.conjuncts
        (conjoin model name first others tree).1) := by
  obtain ⟨whole, after, made, enlarges, enough, shown, shape⟩ :=
    @conjoin_shows tree model name first others
    fun predicate member => (borne predicate member).imp fun _ bears => bears.1
  have factors := conjuncts_shape whole
  rw [shape, conjuncts_conjunction_map] at factors
  have count : (conjunctsOf (some whole)).length ≤ after.depthBound := by
    rw [conjunctsOf, ← List.length_map (Option.map Term.shape), ← factors, List.length_map,
      List.length_cons, depthBound]
    omega
  have found : after.conjuncts whole.ref = whole.conjuncts.map refOf := by
    have bare (inner : Option Shape) : whole.shape.kind ≠ .paren inner := by
      obtain ⟨left, right, isConjunction⟩ := Shape.exists_conjunction
        (Shape.operand (first.bodyShape tree model name)) (mt List.map_eq_nil_iff.1 several)
      rw [shape, isConjunction]
      simp [Term.kind]
    rw [Tree.conjuncts, shown.here.stripParens_of_kind bare]
    exact conjunctsWithin_eq (by simpa using shown) count
  rw [made, found, List.forall₂_map_right_iff]
  have parts : ∀ factor, some factor ∈ whole.conjuncts → factor.All after.Shows :=
    fun factor member => shown.subterm (conjuncts_subset member)
  have paired := forall₂_of_map_eq factors
  generalize first :: others = predicates, whole.conjuncts = factors at paired borne parts
  induction paired with
  | nil => exact .nil
  | @cons predicate factor predicates factors same _ ih =>
    refine .cons ?_ (ih (fun other member => borne other (.tail _ member)) fun other member =>
      parts other (.tail _ member))
    obtain ⟨body, bears, isWhole⟩ := borne predicate (.head _)
    obtain ⟨inner, isInner, shorter⟩ := bears.unwrapped_bodyShape model name isWhole
    rw [isInner] at same ⊢
    obtain ⟨factor, rfl, rfl⟩ := Option.map_eq_some_iff.1 same
    rw [length_subterms_shape] at shorter
    have enoughBound : factor.subterms.length ≤ after.depthBound :=
      Nat.le_succ_of_le (shorter.trans (bears.2.length_le.trans enlarges.size))
    rw [refOf_some, Tree.outline, outlineWithin_eq (parts factor (.head _)) enoughBound]

/-- A conjunction as the first predicate and a predicate in parentheses as the second come back as
two factors. -/
theorem conjuncts_conjoin_of_conjunction :
    ∃ tree, Tree.parse 0 "q(a => a.F && b, a => (a.G));" = .ok tree ∧ ∃ first second : Abstraction,
    (∀ predicate ∈ [first, second], ∃ body, predicate.Bears tree body ∧ body.kind ≠ .paren none) ∧
      List.Forall₂ (fun predicate factor =>
          some ((conjoin (Model.build tree) "x" first [second] tree).2.outline factor).shape
            = Shape.unwrapped (predicate.bodyShape tree (Model.build tree) "x"))
        [first, second] ((conjoin (Model.build tree) "x" first [second] tree).2.conjuncts
          (conjoin (Model.build tree) "x" first [second] tree).1) := by
  have bodies : (Tree.parse 0 "q(a => a.F && b, a => (a.G));").toOption.any (fun tree =>
      [some 5, some 11].all fun body =>
        body ∈ tree.attached && tree.kind body ≠ .paren none) = true := by decide +kernel
  obtain ⟨tree, parsed, bodies⟩ := exists_of_any bodies
  obtain ⟨-, whole, -, program, -⟩ := exists_isProgram_of_parse parsed
  let first : Abstraction := ⟨"a", .symbol 0, some 5⟩
  let second : Abstraction := ⟨"a", .symbol 1, some 11⟩
  have borne : ∀ predicate ∈ [first, second], ∃ body, predicate.Bears tree body ∧
      body.kind ≠ .paren none := by
    intro predicate member
    have passes := List.all_eq_true.1 bodies predicate.body (by
      rcases List.mem_pair.1 member with rfl | rfl <;> simp [first, second])
    rw [Bool.and_eq_true, decide_eq_true_eq, decide_eq_true_eq, program.attached] at passes
    obtain ⟨inside, noHole⟩ := passes
    obtain ⟨body, within, isBody⟩ := mem_refs.1 inside
    have stands := program.stands.subterm within
    refine ⟨body, ⟨isBody.symm, stands.displays⟩, fun hole => noHole ?_⟩
    rw [← isBody]
    exact (hole ▸ stands.shown.here.depicts).of_paren
  exact ⟨tree, parsed, first, second, borne, conjuncts_conjoin (List.cons_ne_nil _ _) borne⟩

end Abstraction

end Refactory
