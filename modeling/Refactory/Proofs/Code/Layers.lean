import Refactory.Proofs.Code.Composition

/-!
# Layers of a composition

A body is a composition when it is a call that passes on, in one plain argument and nowhere else,
another such call, and the innermost one the parameter (`Tree.Composes`). Exactly these bodies are
taken apart into layers, if there are at least two (`Tree.layers?_eq_some_iff`).
-/
namespace Refactory

variable {hole : Passed} {follows : Bool}

namespace Tree

open Term

/-- What a call calls. -/
def callee (tree : Tree) (ref : Ref) : Ref :=
  match tree.kind ref with
  | .invoke callee _ => callee
  | _ => none

/-- The arguments of a call. -/
def arguments (tree : Tree) (ref : Ref) : List Ref :=
  match tree.kind ref with
  | .invoke _ arguments => tree.items arguments
  | _ => []

/-- An argument that passes a call. -/
def passesCall (tree : Tree) (argument : Ref) : Bool :=
  match tree.kind argument with
  | .argument _ value => Abstraction.isCall tree value
  | _ => false

/-- A call passes on a value in one plain argument. Nothing else in it refers to the parameter, and
no two of its arguments are calls. -/
structure PassesOn (tree : Tree) (model : Model) (referent : Referent) (layer : Layer)
    (value : Ref) : Prop where
  /-- The argument is one of the call. -/
  hole : layer.hole ∈ tree.arguments layer.call
  /-- It passes the value without a modifier. -/
  plain : tree.kind layer.hole = .argument .plain value
  /-- What is called has nothing to do with the parameter. -/
  callee : referent.references tree model (tree.callee layer.call) = []
  /-- Nor have the other arguments. -/
  others : ∀ other ∈ tree.arguments layer.call, other ≠ layer.hole →
    referent.references tree model other = []
  /-- At most one argument is a call. -/
  calls : ∀ first ∈ tree.arguments layer.call, ∀ second ∈ tree.arguments layer.call,
    tree.passesCall first → tree.passesCall second → first = second

/-- Calls that pass on each other. The innermost one passes on the parameter. -/
inductive Composes (tree : Tree) (model : Model) (referent : Referent) : Ref → List Layer → Prop
  /-- The innermost call. -/
  | last {layer : Layer} {value : Ref} (passes : tree.PassesOn model referent layer value)
      (isParam : referent.isAt tree model value) : Composes tree model referent layer.call [layer]
  /-- A call around others. -/
  | cons {layer : Layer} {value : Ref} {layers : List Layer}
      (passes : tree.PassesOn model referent layer value)
      (inner : Composes tree model referent value layers) :
      Composes tree model referent layer.call (layer :: layers)

/-- A body is a composition of at least two calls, outermost first. -/
structure IsComposition (tree : Tree) (model : Model) (referent : Referent) (body : Ref)
    (layers : List Layer) :
    Prop where
  /-- There are at least two calls. -/
  several : 2 ≤ layers.length
  /-- The outermost one is the body without the parentheses around it. -/
  outermost : layers.head?.map Layer.call = some (tree.stripParens body)
  /-- Each call has a plain argument as its hole, and refers to the parameter nowhere else. No two
  of its arguments are calls. -/
  each : ∀ layer ∈ layers, ∃ value, tree.PassesOn model referent layer value
  /-- The hole of each call but the last holds the next call. -/
  chained : layers.IsChain fun outer inner => tree.kind outer.hole = .argument .plain inner.call
  /-- That of the last one holds the only reference to the parameter in the body. -/
  innermost : ∃ layer value, layers.getLast? = some layer ∧
    tree.kind layer.hole = .argument .plain value ∧
    referent.references tree model body = [value]

section

variable {tree : Tree} {model : Model} {referent : Referent} {ref child value : Ref} {layer : Layer}
  {layers : List Layer} {term : Outline}

/-- What is at and below a node is the node and what is at and below its children. -/
theorem Stands.descendants_eq (stands : tree.Stands term) :
    tree.descendants term.ref = term.ref :: (tree.children term.ref).flatMap tree.descendants := by
  rw [stands.descendants, refs_eq, innerRefs, stands.shown.here.children, List.flatMap_map]
  exact congrArg _ (List.flatMap_congr fun child member =>
    (stands.subterm (child_mem_subterms member)).descendants.symm)

/-- Below a node where a term stands smaller terms stand. -/
theorem Stands.outline_child (stands : tree.Stands (tree.outline ref))
    (member : child ∈ tree.children ref) :
    tree.Stands (tree.outline child) ∧
      (tree.outline child).subterms.length < (tree.outline ref).subterms.length := by
  change child ∈ tree.children (tree.outline ref).ref at member
  rw [stands.shown.here.children] at member
  obtain ⟨term, isChild, rfl⟩ := List.mem_map.1 member
  have below := stands.subterm (child_mem_subterms isChild)
  rw [below.outline]
  exact ⟨below, length_subterms_lt isChild⟩

/-- The references at and below a node are the node, if it is one, and those at and below its
children. -/
theorem Stands.references_eq (stands : tree.Stands (tree.outline ref)) :
    referent.references tree model ref
    = (if referent.isAt tree model ref then [ref] else []) ++
      (tree.children ref).flatMap (referent.references tree model) := by
  rw [Referent.references, show tree.descendants ref = _ from stands.descendants_eq,
    List.filter_cons, List.filter_flatMap]
  change (if referent.isAt tree model ref = true then _ else _) = _
  split <;> rfl

theorem isReferencedIn_eq_false_iff :
    referent.isReferencedIn tree model ref = false ↔ referent.references tree model ref = [] := by
  rw [Referent.isReferencedIn, Referent.references, List.any_eq_false, List.filter_eq_nil_iff]

/-- The references in a position for one child are those at and below the child. -/
theorem flatMap_references_one (ref : Ref) :
    (tree.slotChildren (.one ref)).flatMap (referent.references tree model) =
    referent.references tree model ref := by
  cases ref with
  | none => rfl
  | some number => exact List.flatMap_singleton _ _

/-- A node that has arguments is a call. -/
theorem exists_invoke_of_mem_arguments {argument : Ref} (member : argument ∈ tree.arguments ref) :
    ∃ range, tree.kind ref = .invoke (tree.callee ref) range ∧
    tree.arguments ref = tree.items range := by
  rw [arguments, callee] at *
  split at member
  · rename_i callee range isInvoke
    exact ⟨range, by simp [isInvoke]⟩
  · cases member

/-- The children of a call are what it calls and its arguments. -/
theorem children_of_mem_arguments {argument : Ref} (member : argument ∈ tree.arguments ref) :
    tree.children ref = tree.slotChildren (.one (tree.callee ref)) ++ tree.arguments ref := by
  obtain ⟨range, isInvoke, same⟩ := exists_invoke_of_mem_arguments member
  rw [Tree.children, isInvoke, same]
  exact (List.flatMap_cons ..).trans (congrArg _ (List.flatMap_singleton _ _))

/-- No node is two children of a node where a term stands. -/
theorem Stands.nodup_children (stands : tree.Stands (tree.outline ref)) :
    (tree.children ref).Nodup := by
  change (tree.children (tree.outline ref).ref).Nodup
  rw [stands.shown.here.children]
  exact stands.children.1.once.sublist (roots_sublist _)

end

section

variable {tree : Tree} {model : Model} {referent : Referent} {ref value : Ref} {layer : Layer}
  {layers : List Layer} (names : ∀ ref, referent.isAt tree model ref → (tree.kind ref).isIdent)

include names

/-- Where no name is, the references are those at and below the children. -/
theorem Stands.references_of_not_isIdent (stands : tree.Stands (tree.outline ref))
    (other : (tree.kind ref).isIdent = false) :
    referent.references tree model ref =
    (tree.children ref).flatMap (referent.references tree model) := by
  rw [stands.references_eq, if_neg, List.nil_append]
  exact fun isAt => absurd (names ref isAt) (by simp [other])

/-- A reference is the only one at and below itself. -/
theorem Stands.references_of_isAt (stands : tree.Stands (tree.outline ref))
    (isAt : referent.isAt tree model ref) :
    referent.references tree model ref = [ref] := by
  have noChild : tree.children ref = [] := by
    have isIdent := names ref isAt
    rw [Tree.children, kindChildren]
    generalize tree.kind ref = kind at isIdent
    cases kind <;> first | rfl | cases isIdent
  rw [stands.references_eq, if_pos isAt, noChild]
  rfl

omit names in
/-- A call is no name. -/
theorem not_isCall_of_isIdent (isIdent : (tree.kind ref).isIdent) :
    Abstraction.isCall tree ref = false := by
  rw [Abstraction.isCall]
  generalize tree.kind ref = kind at isIdent
  cases kind <;> first | rfl | cases isIdent

/-- A reference is among those at and below itself. -/
theorem mem_references_self (isAt : referent.isAt tree model ref) :
    ref ∈ referent.references tree model ref := by
  refine List.mem_filter.2 ⟨?_, isAt⟩
  cases ref with
  | none => cases names none isAt
  | some number => exact tree.mem_descendants_self number

/-- An argument refers to what its value refers to. -/
theorem Stands.references_argument {modifier : Modifier} (stands : tree.Stands (tree.outline ref))
    (isArgument : tree.kind ref = .argument modifier value) :
    referent.references tree model ref = referent.references tree model value := by
  have children : tree.children ref = tree.slotChildren (.one value) := by
    rw [Tree.children, isArgument]
    exact List.flatMap_singleton _ _
  rw [stands.references_of_not_isIdent names (by rw [isArgument]; rfl), children,
    flatMap_references_one]

/-- A call refers to what it passes on. -/
theorem PassesOn.references (passes : tree.PassesOn model referent layer value)
    (stands : tree.Stands (tree.outline layer.call)) :
    referent.references tree model layer.call = referent.references tree model value := by
  obtain ⟨range, isInvoke, -⟩ := exists_invoke_of_mem_arguments passes.hole
  have children := children_of_mem_arguments passes.hole
  have once := stands.nodup_children
  rw [children, List.nodup_append'] at once
  obtain ⟨front, back, split⟩ := List.append_of_mem passes.hole
  have others {other : Ref}
      (member : other ∈ front ++ back) : referent.references tree model other = [] := by
    refine passes.others other ?_ ?_
    · rw [split]
      exact (List.mem_append.1 member).elim (List.mem_append_left _) fun behind =>
        List.mem_append_right _ (.tail _ behind)
    · rintro rfl
      have once := split ▸ once.2.1
      exact (List.nodup_middle.1 once).notMem member
  have holeStands :=
    (stands.outline_child (by rw [children]; exact List.mem_append_right _ passes.hole)).1
  rw [stands.references_of_not_isIdent names (by rw [isInvoke]; rfl), children, List.flatMap_append,
    flatMap_references_one, passes.callee, split, List.flatMap_append, List.flatMap_cons,
    List.flatMap_eq_nil_iff.2 fun other member => others (List.mem_append_left _ member),
    List.flatMap_eq_nil_iff.2 fun other member => others (List.mem_append_right _ member),
    holeStands.references_argument names passes.plain]
  simp

end

section

variable {tree : Tree} {model : Model} {referent : Referent} {ref value : Ref} {layer : Layer}
  {layers : List Layer}

/-- What is at and below a child is at and below the node. -/
theorem Stands.descendants_child_subset {child : Ref} (stands : tree.Stands (tree.outline ref))
    (member : child ∈ tree.children ref) : tree.descendants child ⊆ tree.descendants ref := by
  intro other inside
  rw [show tree.descendants ref = _ from stands.descendants_eq]
  exact .tail _ (List.mem_flatMap.2 ⟨child, member, inside⟩)

/-- The value that is passed on stands below the call. -/
theorem PassesOn.outline_value (passes : tree.PassesOn model referent layer value)
    (stands : tree.Stands (tree.outline layer.call)) (present : value ≠ none) :
    tree.Stands (tree.outline value) ∧
      (tree.outline value).subterms.length < (tree.outline layer.call).subterms.length ∧
        tree.descendants value ⊆ tree.descendants layer.call := by
  have isArgument : layer.hole ∈ tree.children layer.call := by
    rw [children_of_mem_arguments passes.hole]
    exact List.mem_append_right _ passes.hole
  obtain ⟨holeStands, shorter⟩ := stands.outline_child isArgument
  have isChild : value ∈ tree.children layer.hole := by
    obtain ⟨number, rfl⟩ := Option.ne_none_iff_exists'.1 present
    rw [Tree.children, passes.plain]
    exact .head _
  obtain ⟨valueStands, shorterStill⟩ := holeStands.outline_child isChild
  exact ⟨valueStands, Nat.lt_trans shorterStill shorter, fun _ inside =>
    stands.descendants_child_subset isArgument (holeStands.descendants_child_subset isChild inside)⟩

/-- What is passed is what the arguments say. -/
theorem mem_passed_iff {range : Range} {passed : Passed} : passed ∈ tree.passed range ↔
    passed.argument ∈ tree.items range ∧
    tree.kind passed.argument = .argument passed.modifier passed.value := by
  rw [Tree.passed, List.mem_filterMap]
  constructor
  · rintro ⟨ref, member, found⟩
    split at found
    · rename_i modifier value isArgument
      obtain rfl := Option.some.inj found
      exact ⟨member, isArgument⟩
    · cases found
  · rintro ⟨member, isArgument⟩
    exact ⟨passed.argument, member, by rw [isArgument]⟩

/-- What an argument passes is one thing. -/
theorem eq_of_mem_passed {range : Range} {first second : Passed}
    (isFirst : first ∈ tree.passed range) (isSecond : second ∈ tree.passed range)
    (same : first.argument = second.argument) : first = second := by
  obtain ⟨-, firstKind⟩ := mem_passed_iff.1 isFirst
  obtain ⟨-, secondKind⟩ := mem_passed_iff.1 isSecond
  rw [same, secondKind] at firstKind
  rcases first with ⟨argument, modifier, value⟩
  cases firstKind
  exact congrArg (Passed.mk · _ _) same

/-- Nothing is passed twice where no argument is there twice. -/
theorem nodup_passed {range : Range} (once : (tree.items range).Nodup) :
    (tree.passed range).Nodup := by
  refine List.Nodup.filterMap (fun first second passed isFirst isSecond => ?_) once
  have same {ref : Ref} (found : passed ∈ (match tree.kind ref with
      | .argument modifier value => some (⟨ref, modifier, value⟩ : Passed)
      | _ => none)) : passed.argument = ref := by
    split at found
    · exact congrArg Passed.argument (Option.some.inj found).symm
    · cases found
  exact (same isFirst).symm.trans (same isSecond)

/-- What is filtered out of a list when only one element passes. -/
theorem filter_eq_singleton {α : Type} {list : List α} (test : α → Bool) {one : α}
    (once : list.Nodup)
    (member : one ∈ list) (passes : test one) (only : ∀ other ∈ list, test other → other = one) :
    list.filter test = [one] := by
  refine List.perm_singleton.1
    ((List.perm_ext_iff_of_nodup (once.filter test) (List.nodup_singleton one)).2 fun other => ?_)
  rw [List.mem_filter, List.mem_singleton]
  constructor
  · exact fun ⟨inside, passesOther⟩ => only other inside passesOther
  · rintro rfl
    exact ⟨member, passes⟩

/-- The hole of a call is one of its plain arguments, and neither the callee nor another argument
uses the parameter. -/
theorem hole?_eq_some {callee : Ref} {arguments : List Passed}
    (found : tree.hole? model referent callee arguments = some (hole, follows)) :
    hole ∈ arguments ∧ hole.modifier = .plain ∧
    (follows = false → referent.isAt tree model hole.value) ∧
      referent.isReferencedIn tree model callee = false ∧ ∀ other ∈ arguments,
      other.argument ≠ hole.argument → referent.isReferencedIn tree model other.value = false := by
  simp only [hole?] at found
  split at found
  · cases found
  · rename_i unused
    obtain ⟨chosen, only⟩ := Option.filter_eq_some_iff.1 found
    have others : ∀ other ∈ arguments, other.argument ≠ hole.argument →
        referent.isReferencedIn tree model other.value = false := fun other member differ => by
      have only := List.all_eq_true.1 only other member
      simpa [differ] using only
    suffices isHole : hole ∈ arguments ∧ hole.modifier = .plain ∧
        (follows = false → referent.isAt tree model hole.value) from
      ⟨isHole.1, isHole.2.1, isHole.2.2, Bool.eq_false_of_not_eq_true unused, others⟩
    split at chosen
    · cases chosen
    · split at chosen
      · rename_i first others isCalls
        split at chosen
        · rename_i plain
          cases chosen
          have inCalls : hole ∈ (arguments.filter (Abstraction.isCall tree ·.value)).filter
              (referent.isReferencedIn tree model ·.value) := isCalls ▸ .head _
          exact ⟨List.mem_of_mem_filter (List.mem_of_mem_filter inCalls), plain, by simp⟩
        · cases chosen
      · split at chosen
        · rename_i hole isPlain
          cases chosen
          have among := isPlain ▸ List.mem_singleton_self hole
          obtain ⟨plain, isParam⟩ := Bool.and_eq_true_iff.1 (List.mem_filter.1 among).2
          exact ⟨List.mem_of_mem_filter among, of_decide_eq_true plain, fun _ => isParam⟩
        · cases chosen

/-- Where there is a hole at most one argument is a call. -/
theorem eq_of_hole? {callee : Ref} {arguments : List Passed} {first second : Passed}
    (found : tree.hole? model referent callee arguments = some (hole, follows))
    (isFirst : first ∈ arguments)
    (isSecond : second ∈ arguments) (firstCalls : Abstraction.isCall tree first.value)
    (secondCalls : Abstraction.isCall tree second.value) : first = second := by
  have isFirst := List.mem_filter (p := (Abstraction.isCall tree ·.value)).2 ⟨isFirst, firstCalls⟩
  have isSecond :=
    List.mem_filter (p := (Abstraction.isCall tree ·.value)).2 ⟨isSecond, secondCalls⟩
  simp only [hole?] at found
  split at found
  · cases found
  · obtain ⟨chosen, -⟩ := Option.filter_eq_some_iff.1 found
    generalize arguments.filter (Abstraction.isCall tree ·.value) = calls at chosen isFirst isSecond
    match calls with
    | [] => cases isFirst
    | [one] => exact (List.mem_singleton.1 isFirst).trans (List.mem_singleton.1 isSecond).symm
    | _ :: _ :: _ => cases chosen

end

section

variable {tree : Tree} {model : Model} {referent : Referent} {range : Range} {value : Ref}
  {layer : Layer} (names : ∀ ref, referent.isAt tree model ref → (tree.kind ref).isIdent)
  (stands : tree.Stands (tree.outline layer.call))
  (isInvoke : tree.kind layer.call = .invoke (tree.callee layer.call) range)

include names stands isInvoke

theorem PassesOn.hole?_eq (passes : tree.PassesOn model referent layer value) (follows : Bool)
    (isCall : follows = true → Abstraction.isCall tree value ∧
      referent.references tree model value ≠ [])
    (isParam : follows = false → referent.isAt tree model value) :
    tree.hole? model referent (tree.callee layer.call) (tree.passed range)
      = some (⟨layer.hole, .plain, value⟩, follows) := by
  have children := children_of_mem_arguments passes.hole
  have arguments : tree.arguments layer.call = tree.items range := by rw [Tree.arguments, isInvoke]
  have once :=
    nodup_passed (arguments ▸ (List.nodup_append'.1 (children ▸ stands.nodup_children)).2.1)
  have isHole : ⟨layer.hole, .plain, value⟩ ∈ tree.passed range :=
    mem_passed_iff.2 ⟨arguments ▸ passes.hole, passes.plain⟩
  have eq_hole {other : Passed} (member : other ∈ tree.passed range)
      (same : other.argument = layer.hole) :
      other = ⟨layer.hole, .plain, value⟩ := eq_of_mem_passed member isHole same
  have free {other : Passed} (member : other ∈ tree.passed range)
      (differs : other.argument ≠ layer.hole) :
      referent.isReferencedIn tree model other.value = false := by
    obtain ⟨inside, isArgument⟩ := mem_passed_iff.1 member
    rw [← arguments] at inside
    have below := stands.outline_child (children ▸ List.mem_append_right _ inside)
    rw [isReferencedIn_eq_false_iff, ← below.1.references_argument names isArgument]
    exact passes.others _ inside differs
  have oneCall {first second : Passed} (isFirst : first ∈ tree.passed range)
      (isSecond : second ∈ tree.passed range)
      (firstCalls : Abstraction.isCall tree first.value)
      (secondCalls : Abstraction.isCall tree second.value) :
      first = second := by
    obtain ⟨inFirst, firstKind⟩ := mem_passed_iff.1 isFirst
    obtain ⟨inSecond, secondKind⟩ := mem_passed_iff.1 isSecond
    exact eq_of_mem_passed isFirst isSecond
      (passes.calls _ (arguments ▸ inFirst) _ (arguments ▸ inSecond)
      (by rwa [passesCall, firstKind]) (by rwa [passesCall, secondKind]))
  have onlyUse : (tree.passed range).all (fun other =>
      decide (other.argument = layer.hole) || !referent.isReferencedIn tree model other.value)
        = true := by
    refine List.all_eq_true.2 fun other member => ?_
    by_cases same : other.argument = layer.hole
    · simp [same]
    · simp [free member same]
  have callee := isReferencedIn_eq_false_iff.2 passes.callee
  cases follows with
  | true =>
    obtain ⟨calls, uses⟩ := isCall rfl
    have used : referent.isReferencedIn tree model value = true :=
      Bool.eq_true_of_not_eq_false fun free => uses (isReferencedIn_eq_false_iff.1 free)
    have calls := filter_eq_singleton (Abstraction.isCall tree ·.value) once isHole calls
      fun other member isCall => oneCall member isHole isCall calls
    simp [hole?, callee, calls, used, onlyUse]
  | false =>
    have isParam := isParam rfl
    have noCall : Abstraction.isCall tree value = false :=
      not_isCall_of_isIdent (names value isParam)
    have unused : ((tree.passed range).filter (Abstraction.isCall tree ·.value)).filter
        (referent.isReferencedIn tree model ·.value) = [] := by
      refine List.filter_eq_nil_iff.2 fun other member => ?_
      obtain ⟨inside, calls⟩ := List.mem_filter.1 member
      rw [free inside fun same => ?_]
      · exact Bool.false_ne_true
      · rw [eq_hole inside same] at calls
        exact absurd calls (by simp [noCall])
    have holes := filter_eq_singleton (fun argument : Passed =>
        decide (argument.modifier = .plain) &&
          referent.isAt tree model argument.value) once isHole (by simp [isParam])
      fun other member isParam => by
        by_contra differs
        have isAt := (Bool.and_eq_true_iff.1 isParam).2
        have unused :=
          isReferencedIn_eq_false_iff.1 (free member fun same => differs (eq_hole member same))
        have used := mem_references_self names isAt
        rw [unused] at used
        cases used
    have few : (tree.passed range).filter (Abstraction.isCall tree ·.value) = [] ∨
        ∃ other, (tree.passed range).filter (Abstraction.isCall tree ·.value) = [other] := by
      refine or_iff_not_imp_left.2 fun some => ?_
      obtain ⟨other, isOther⟩ := List.exists_mem_of_ne_nil _ some
      obtain ⟨inside, calls⟩ := List.mem_filter.1 isOther
      exact ⟨other, filter_eq_singleton _ once inside calls fun another member isCall =>
        oneCall member inside isCall calls⟩
    rcases few with none | ⟨other, one⟩
    · simp [hole?, callee, none, holes, onlyUse]
    · rw [one] at unused
      simp [hole?, callee, one, unused, holes, onlyUse]

omit stands isInvoke in
/-- A call with a hole passes on what is in the hole. -/
theorem passesOn_of_hole? {ref : Ref} (stands : tree.Stands (tree.outline ref))
    (isInvoke : tree.kind ref = .invoke (tree.callee ref) range)
    (isArgument : ∀ argument ∈ tree.arguments ref, (tree.kind argument).isArgument)
    (found : tree.hole? model referent (tree.callee ref) (tree.passed range)
      = some (hole, follows)) :
    tree.PassesOn model referent ⟨ref, hole.argument⟩ hole.value ∧
      (follows = false → referent.isAt tree model hole.value) := by
  obtain ⟨member, plain, isParam, free, others⟩ := hole?_eq_some found
  obtain ⟨inside, isHole⟩ := mem_passed_iff.1 member
  have arguments : tree.arguments ref = tree.items range := by rw [Tree.arguments, isInvoke]
  rw [plain] at isHole
  rw [← arguments] at inside
  have exists_passed {argument : Ref} (isOne : argument ∈ tree.arguments ref) :
      ∃ passed ∈ tree.passed range, passed.argument = argument := by
    have isArgument := isArgument argument isOne
    generalize same : tree.kind argument = kind at isArgument
    cases kind <;> try cases isArgument
    exact ⟨⟨argument, _, _⟩, mem_passed_iff.2 ⟨arguments ▸ isOne, same⟩, rfl⟩
  refine ⟨⟨inside, isHole, isReferencedIn_eq_false_iff.1 free, fun other isOther differs => ?_,
    fun first inFirst second inSecond firstCalls secondCalls => ?_⟩, isParam⟩
  · obtain ⟨passed, isPassed, rfl⟩ := exists_passed isOther
    have below :=
      stands.outline_child (children_of_mem_arguments inside ▸ List.mem_append_right _ isOther)
    rw [below.1.references_argument names (mem_passed_iff.1 isPassed).2]
    exact isReferencedIn_eq_false_iff.1 (others passed isPassed differs)
  · obtain ⟨first, isFirst, rfl⟩ := exists_passed inFirst
    obtain ⟨second, isSecond, rfl⟩ := exists_passed inSecond
    rw [passesCall, (mem_passed_iff.1 isFirst).2] at firstCalls
    rw [passesCall, (mem_passed_iff.1 isSecond).2] at secondCalls
    exact congrArg _ (eq_of_hole? found isFirst isSecond firstCalls secondCalls)

end

section

variable {tree : Tree} {model : Model} {referent : Referent} {ref body : Ref} {layer : Layer}
  {layers : List Layer}

/-- What a layer passes on is one thing. -/
theorem PassesOn.value_unique {value other : Ref}
    (passes : tree.PassesOn model referent layer value)
    (plain : tree.kind layer.hole = .argument .plain other) : value = other := by
  have same := passes.plain.symm.trans plain
  cases same
  rfl

/-- A composition is a call. -/
theorem Composes.isCall (composes : Composes tree model referent ref layers) :
    Abstraction.isCall tree ref := by
  have of_passes {layer : Layer} {value : Ref} (passes : tree.PassesOn model referent layer value) :
      Abstraction.isCall tree layer.call := by
    obtain ⟨range, isInvoke, -⟩ := exists_invoke_of_mem_arguments passes.hole
    rw [Abstraction.isCall, isInvoke]
  cases composes with
  | last passes _ => exact of_passes passes
  | cons passes _ => exact of_passes passes

theorem ne_none_of_isCall (isCall : Abstraction.isCall tree ref) : ref ≠ none := by
  rintro rfl
  cases isCall

/-- The calls of a composition start with the composition itself. -/
theorem Composes.outermost (composes : Composes tree model referent ref layers) :
    layers.head?.map Layer.call = some ref := by
  cases composes <;> rfl

/-- Each call of a composition passes something on. -/
theorem Composes.each (composes : Composes tree model referent ref layers) :
    ∀ layer ∈ layers, ∃ value, tree.PassesOn model referent layer value := by
  induction composes with
  | last passes _ => exact fun layer member => List.mem_singleton.1 member ▸ ⟨_, passes⟩
  | cons passes _ ih => exact List.forall_mem_cons.2 ⟨⟨_, passes⟩, ih⟩

/-- Each call of a composition but the last passes on the next one. -/
theorem Composes.chained (composes : Composes tree model referent ref layers) :
    layers.IsChain fun outer inner => tree.kind outer.hole = .argument .plain inner.call := by
  induction composes with
  | last passes _ => exact .singleton _
  | cons passes inner ih =>
    cases inner with
    | last inner _ => exact .cons_cons passes.plain ih
    | cons inner _ => exact .cons_cons passes.plain ih

/-- Calls that pass on each other are a composition if the last one passes on the parameter. -/
theorem composes_of_chained
    (each : ∀ other ∈ layer :: layers, ∃ value, tree.PassesOn model referent other value)
    (chained : (layer :: layers).IsChain fun outer inner =>
      tree.kind outer.hole = .argument .plain inner.call)
    {last : Layer} {value : Ref} (isLast : (layer :: layers).getLast? = some last)
    (plain : tree.kind last.hole = .argument .plain value)
    (isParam : referent.isAt tree model value) :
    Composes tree model referent layer.call (layer :: layers) := by
  induction layers generalizing layer with
  | nil =>
    obtain rfl : layer = last := by simpa using isLast
    obtain ⟨passed, passes⟩ := each layer (.head _)
    obtain rfl := passes.value_unique plain
    exact .last passes isParam
  | cons inner layers ih =>
    obtain ⟨passed, passes⟩ := each layer (.head _)
    obtain ⟨here, below⟩ := List.isChain_cons_cons.1 chained
    obtain rfl := passes.value_unique here
    refine .cons passes (ih (fun other member => each other (.tail _ member)) below ?_)
    simpa using isLast

variable (names : ∀ ref, referent.isAt tree model ref → (tree.kind ref).isIdent)

include names

/-- A composition has one reference to the parameter, which is what its last call passes on. -/
theorem Composes.references (composes : Composes tree model referent ref layers)
    (stands : tree.Stands (tree.outline ref)) : ∃ layer value, layers.getLast? = some layer ∧
      tree.kind layer.hole = .argument .plain value ∧
      referent.references tree model ref = [value] := by
  induction composes with
  | @last layer value passes isParam =>
    have present : value ≠ none := by
      rintro rfl
      cases names none isParam
    refine ⟨layer, value, rfl, passes.plain, ?_⟩
    rw [passes.references names stands,
      (passes.outline_value stands present).1.references_of_isAt names isParam]
  | @cons layer value layers passes inner ih =>
    have below := (passes.outline_value stands (ne_none_of_isCall inner.isCall)).1
    obtain ⟨last, passed, isLast, plain, only⟩ := ih below
    refine ⟨last, passed, ?_, plain, (passes.references names stands).trans only⟩
    rw [List.getLast?_cons, isLast]
    rfl

/-- The layers that are found at a call, as deep as it takes, are those of a composition. -/
theorem layersWithin_eq_some_iff {bound : Nat} (stands : tree.Stands (tree.outline ref))
    (enough : (tree.outline ref).subterms.length ≤ bound)
    (isArgument : ∀ call ∈ tree.descendants ref, ∀ argument ∈ tree.arguments call,
      (tree.kind argument).isArgument) :
    tree.layersWithin model referent bound ref = some layers ↔
    Composes tree model referent ref layers := by
  induction bound generalizing ref layers with
  | zero =>
    rw [subterms_eq] at enough
    exact absurd enough (by simp)
  | succ bound ih =>
    have here : ref ∈ tree.descendants ref := by
      rw [show tree.descendants ref = _ from stands.descendants_eq]
      exact .head _
    have descends {layer : Layer} {value : Ref} {layers : List Layer} (isHere : layer.call = ref)
        (passes : tree.PassesOn model referent layer value) (present : value ≠ none) :
        tree.layersWithin model referent bound value = some layers ↔
          Composes tree model referent value layers := by
      subst isHere
      obtain ⟨below, shorter, inside⟩ := passes.outline_value stands present
      exact ih below (by omega) fun call member => isArgument call (inside member)
    constructor
    · intro found
      rw [layersWithin] at found
      split at found
      · rename_i callee range isInvoke
        have isCallee : tree.callee ref = callee := by rw [Tree.callee, isInvoke]
        rw [← isCallee] at isInvoke found
        split at found
        · rename_i hole isHole
          obtain ⟨inner, isInner, rfl⟩ := Option.map_eq_some_iff.1 found
          have passes := (passesOn_of_hole? names stands isInvoke (isArgument ref here) isHole).1
          have present : hole.value ≠ none := by
            intro absent
            rw [absent] at isInner
            cases bound <;> cases isInner
          exact .cons passes ((descends rfl passes present).1 isInner)
        · rename_i hole isHole
          obtain rfl := Option.some.inj found
          obtain ⟨passes, isParam⟩ :=
            passesOn_of_hole? names stands isInvoke (isArgument ref here) isHole
          exact .last passes (isParam rfl)
        · cases found
      · cases found
    · intro composes
      cases composes with
      | @last layer value passes isParam =>
        obtain ⟨range, isInvoke, -⟩ := exists_invoke_of_mem_arguments passes.hole
        rw [layersWithin, isInvoke]
        dsimp only
        rw [passes.hole?_eq names stands isInvoke false nofun fun _ => isParam]
      | @cons layer value layers passes inner =>
        obtain ⟨range, isInvoke, -⟩ := exists_invoke_of_mem_arguments passes.hole
        have present := ne_none_of_isCall inner.isCall
        have used : referent.references tree model value ≠ [] := by
          obtain ⟨_, _, -, -, only⟩ :=
            inner.references names (passes.outline_value stands present).1
          simp [only]
        rw [layersWithin, isInvoke]
        dsimp only
        rw [passes.hole?_eq names stands isInvoke true (fun _ => ⟨inner.isCall, used⟩) nofun]
        dsimp only
        rw [(descends rfl passes present).2 inner]
        rfl

/-- Taking parentheses off leaves the same references, and what is inside them stands. -/
theorem Stands.stripParensWithin (stands : tree.Stands (tree.outline ref)) (bound : Nat) :
    referent.references tree model (tree.stripParensWithin bound ref) =
    referent.references tree model ref ∧
      tree.descendants (tree.stripParensWithin bound ref) ⊆ tree.descendants ref ∧
      (tree.stripParensWithin bound ref ≠ none →
        tree.Stands (tree.outline (tree.stripParensWithin bound ref))) := by
  induction bound generalizing ref with
  | zero => exact ⟨rfl, List.Subset.refl _, fun _ => stands⟩
  | succ bound ih =>
    rw [Tree.stripParensWithin]
    split
    · rename_i inner isParen
      have children : tree.children ref = tree.slotChildren (.one inner) := by
        rw [Tree.children, isParen]
        exact List.flatMap_singleton _ _
      have references := stands.references_of_not_isIdent names (by rw [isParen]; rfl)
      rw [children, flatMap_references_one] at references
      cases inner with
      | none =>
        have nothing (bound : Nat) : tree.stripParensWithin bound none = none := by
          cases bound <;> rfl
        rw [nothing, references]
        exact ⟨rfl, List.nil_subset _, fun absent => absurd rfl absent⟩
      | some number =>
        have isChild : some number ∈ tree.children ref := children ▸ .head _
        obtain ⟨same, inside, standsInner⟩ := ih (stands.outline_child isChild).1
        exact ⟨same.trans references.symm, fun _ below =>
          stands.descendants_child_subset isChild (inside below), standsInner⟩
    · exact ⟨rfl, List.Subset.refl _, fun _ => stands⟩

/-- A body has layers exactly when it is a composition of at least two calls, and then these are its
layers. What refers to the parameter are names, and the arguments of calls are arguments. -/
theorem layers?_eq_some_iff (stands : tree.Stands (tree.outline body))
    (isArgument : ∀ call ∈ tree.descendants body, ∀ argument ∈ tree.arguments call,
      (tree.kind argument).isArgument) :
    tree.layers? model referent body = some layers ↔
    tree.IsComposition model referent body layers := by
  obtain ⟨references, inside, standsInner⟩ := stands.stripParensWithin names tree.depthBound
  change referent.references tree model (tree.stripParens body) = _ at references
  change tree.descendants (tree.stripParens body) ⊆ _ at inside
  change tree.stripParens body ≠ none →
    tree.Stands (tree.outline (tree.stripParens body)) at standsInner
  have found_iff (present : tree.stripParens body ≠ none) :
      tree.layersWithin model referent tree.depthBound (tree.stripParens body) = some layers ↔
        Composes tree model referent (tree.stripParens body) layers :=
    layersWithin_eq_some_iff names (standsInner present)
    (Nat.le_succ_of_le (standsInner present).length_le)
      fun call member => isArgument call (inside member)
  rw [layers?, Option.filter_eq_some_iff, decide_eq_true_eq]
  constructor
  · rintro ⟨found, several⟩
    have present : tree.stripParens body ≠ none := by
      intro absent
      rw [absent] at found
      cases found
    have composes := (found_iff present).1 found
    refine ⟨several, composes.outermost, composes.each, composes.chained, ?_⟩
    rw [← references]
    exact composes.references names (standsInner present)
  · rintro ⟨several, outermost, each, chained, last, value, isLast, plain, only⟩
    obtain ⟨layer, others, rfl⟩ :=
      List.exists_cons_of_length_pos (Nat.lt_of_lt_of_le Nat.zero_lt_two several)
    have isParam :
        value ∈ referent.references tree model body := only ▸ List.mem_singleton_self value
    have composes := composes_of_chained each chained isLast plain (List.mem_filter.1 isParam).2
    rw [Option.some.inj outermost] at composes
    exact ⟨(found_iff (ne_none_of_isCall composes.isCall)).2 composes, several⟩

end

/-- What refers to something with a symbol is a name. -/
theorem isIdent_of_isAt_symbol {tree : Tree} {model : Model} {id : SymbolId} (ref : Ref)
    (isAt : Referent.isAt (.symbol id) tree model ref) : (tree.kind ref).isIdent := by
  rw [isAt_symbol, Bool.and_eq_true] at isAt
  exact isAt.1

/-- A body of three calls, with parentheses around it and another argument in the second one. -/
theorem layers?_eq_some_iff_three : ∃ tree symbol,
    Tree.parse 0 "q = xs.Select(x => (h(g(f(x), 1))));" = .ok tree ∧
      (Model.build tree).declaredSymbol (some 3) = some symbol ∧
      tree.IsComposition (Model.build tree) (.symbol symbol) (some 16)
        [⟨some 15, some 14⟩, ⟨some 13, some 10⟩, ⟨some 9, some 8⟩] := by
  have computed : (Tree.parse 0 "q = xs.Select(x => (h(g(f(x), 1))));").toOption.any (fun tree =>
      tree.attached.contains (some 16) && (Model.build tree).declaredSymbol (some 3) == some 0 &&
        (tree.descendants (some 16)).all (fun call => (tree.arguments call).all fun ref =>
        (tree.kind ref).isArgument) && tree.layers? (Model.build tree) (.symbol 0) (some 16)
          == some [⟨some 15, some 14⟩, ⟨some 13, some 10⟩, ⟨some 9, some 8⟩]) = true := by
    decide +kernel
  obtain ⟨tree, parsed, facts⟩ := exists_of_any computed
  simp only [Bool.and_eq_true, beq_iff_eq, List.contains_iff_mem, List.all_eq_true] at facts
  obtain ⟨⟨⟨attached, symbol⟩, isArgument⟩, layers⟩ := facts
  obtain ⟨term, whole, -, program, -⟩ := exists_isProgram_of_parse parsed
  rw [program.attached] at attached
  obtain ⟨body, within, isBody⟩ := mem_refs.1 attached
  have stands := program.stands.subterm within
  have outline := stands.outline
  rw [isBody] at outline
  exact ⟨tree, 0, parsed, symbol,
    (layers?_eq_some_iff isIdent_of_isAt_symbol (outline.symm ▸ stands) isArgument).1 layers⟩

end Tree

end Refactory
