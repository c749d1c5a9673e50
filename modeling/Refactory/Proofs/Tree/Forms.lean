import Refactory.Proofs.Tree.Reading

/-!
# The forms of nodes

What a tree says of the kind of a node says what form the term at the node has: a call is a node of
call form whose children are at the references of the kind, and so on for each form that is looked
for. A child that is absent is no term.
-/
namespace Refactory

variable {type : Option Outline}

namespace Tree

open Term

/-- Where an optional term is. -/
def refOf (term : Option Outline) : Ref := term.bind Term.ref

@[simp] theorem refOf_none : refOf none = none := rfl

@[simp] theorem refOf_some (term : Outline) : refOf (some term) = term.ref := rfl

/-- The term at an optional node. -/
def outline? (tree : Tree) (ref : Ref) : Option Outline :=
    if ref = none then none else some (tree.outline ref)

theorem outline?_refOf {tree : Tree} {child : Option Outline}
    (stands : ∀ term ∈ child, tree.Stands term) :
    tree.outline? (refOf child) = child := by
  cases child with
  | none => rfl
  | some term =>
    have stands := stands term rfl
    rw [outline?, refOf_some, if_neg (stands.shown.here.hasRef.ne_none), stands.outline]

/-- There is one term for a node. -/
theorem eq_of_shown {tree : Tree} {here there : Outline} (shown : here.All tree.Shows)
    (shownThere : there.All tree.Shows)
    (same : here.ref = there.ref) : here = there := by
  rw [← outlineWithin_eq shown (Nat.le_max_left _ there.subterms.length), same,
    outlineWithin_eq shownThere (Nat.le_max_right _ _)]

/-- There is one term for a node that may be absent. -/
theorem eq_of_refOf_eq {tree : Tree} {here there : Option Outline}
    (shown : ∀ term ∈ here, term.All tree.Shows) (shownThere : ∀ term ∈ there, term.All tree.Shows)
    (same : refOf here = refOf there) : here = there := by
  rcases here with _ | here <;> rcases there with _ | there
  · rfl
  · exact absurd same.symm (shownThere there rfl).here.hasRef.ne_none
  · exact absurd same (shown here rfl).here.hasRef.ne_none
  · rw [eq_of_shown (shown here rfl) (shownThere there rfl) same]

section

variable {tree : Tree} {slots : List NodeSlot}
  {contents : List (Slot (Option Outline) (List Outline))} {ref : Ref} {range : Range}

/-- A position for one child comes first in a form when it does in the kind. -/
theorem forall₂_holds_one : List.Forall₂ tree.Holds (.one ref :: slots) contents ↔
    ∃ child others, contents = .one child :: others ∧ refOf child = ref ∧
      (∀ term ∈ child, term.ref ≠ none) ∧ List.Forall₂ tree.Holds slots others := by
  rw [List.forall₂_cons_left_iff]
  constructor
  · rintro ⟨content, others, holds, rest, rfl⟩
    rcases content with child | children
    · exact ⟨child, others, rfl, holds.1, holds.2, rest⟩
    · cases holds
  · rintro ⟨child, others, rfl, same, named, rest⟩
    exact ⟨.one child, others, ⟨same, named⟩, rest, rfl⟩

/-- A list comes first in a form when it does in the kind. -/
theorem forall₂_holds_many : List.Forall₂ tree.Holds (.many range :: slots) contents ↔
    ∃ children others, contents = .many children :: others ∧
    tree.items range = children.map Term.ref ∧
      range.start + range.length ≤ tree.lists.size ∧ List.Forall₂ tree.Holds slots others := by
  rw [List.forall₂_cons_left_iff]
  constructor
  · rintro ⟨content, others, holds, rest, rfl⟩
    rcases content with child | children
    · cases holds
    · exact ⟨children, others, rfl, holds.1, holds.2, rest⟩
  · rintro ⟨children, others, rfl, entries, inside, rest⟩
    exact ⟨.many children, others, ⟨entries, inside⟩, rest, rfl⟩

end

namespace Depicts

variable {tree : Tree} {kind : NodeKind} {form : Form Place} {first second third : Ref}
  {range others : Range} {name : String}

/-- A form is made of the kind that shows it and of its own child positions. -/
theorem exists_contents (depicts : tree.Depicts kind form) :
    ∃ contents, form = kind.withSlots none [] contents ∧
    List.Forall₂ tree.Holds kind.slots contents :=
  ⟨form.slots, Kind.eq_withSlots_of_skeleton none [] depicts.skeleton, depicts.slots⟩

theorem unit (depicts : tree.Depicts (.unit range) form) :
    ∃ members, form = .unit members ∧ tree.items range = members.map Term.ref := by
  obtain ⟨contents, same, slots⟩ := depicts.exists_contents
  simp only [Kind.slots, forall₂_holds_many, List.forall₂_nil_left_iff] at slots
  obtain ⟨members, _, rfl, entries, -, rfl⟩ := slots
  exact ⟨members, same, entries⟩

theorem block (depicts : tree.Depicts (.block range) form) :
    ∃ statements, form = .block statements ∧ tree.items range = statements.map Term.ref := by
  obtain ⟨contents, same, slots⟩ := depicts.exists_contents
  simp only [Kind.slots, forall₂_holds_many, List.forall₂_nil_left_iff] at slots
  obtain ⟨statements, _, rfl, entries, -, rfl⟩ := slots
  exact ⟨statements, same, entries⟩

theorem ident (depicts : tree.Depicts (.ident name) form) : form = .ident name := by
  obtain ⟨contents, same, -⟩ := depicts.exists_contents
  exact same

theorem param (depicts : tree.Depicts (.param first name) form) :
    ∃ type, form = .param type name ∧ refOf type = first := by
  obtain ⟨contents, same, slots⟩ := depicts.exists_contents
  simp only [Kind.slots, forall₂_holds_one, List.forall₂_nil_left_iff] at slots
  obtain ⟨type, _, rfl, isType, -, rfl⟩ := slots
  exact ⟨type, same, isType⟩

theorem declarator (depicts : tree.Depicts (.declarator name first) form) :
    ∃ value, form = .declarator name value ∧ refOf value = first := by
  obtain ⟨contents, same, slots⟩ := depicts.exists_contents
  simp only [Kind.slots, forall₂_holds_one, List.forall₂_nil_left_iff] at slots
  obtain ⟨value, _, rfl, isValue, -, rfl⟩ := slots
  exact ⟨value, same, isValue⟩

theorem member {conditional : Bool} (depicts : tree.Depicts (.member first name conditional) form) :
    ∃ receiver, form = .member receiver name conditional ∧ refOf receiver = first := by
  obtain ⟨contents, same, slots⟩ := depicts.exists_contents
  simp only [Kind.slots, forall₂_holds_one, List.forall₂_nil_left_iff] at slots
  obtain ⟨receiver, _, rfl, isReceiver, -, rfl⟩ := slots
  exact ⟨receiver, same, isReceiver⟩

theorem argument {modifier : Modifier} (depicts : tree.Depicts (.argument modifier first) form) :
    ∃ value, form = .argument modifier value ∧ refOf value = first := by
  obtain ⟨contents, same, slots⟩ := depicts.exists_contents
  simp only [Kind.slots, forall₂_holds_one, List.forall₂_nil_left_iff] at slots
  obtain ⟨value, _, rfl, isValue, -, rfl⟩ := slots
  exact ⟨value, same, isValue⟩

theorem paren (depicts : tree.Depicts (.paren first) form) :
    ∃ inner, form = .paren inner ∧ refOf inner = first := by
  obtain ⟨contents, same, slots⟩ := depicts.exists_contents
  simp only [Kind.slots, forall₂_holds_one, List.forall₂_nil_left_iff] at slots
  obtain ⟨inner, _, rfl, isInner, -, rfl⟩ := slots
  exact ⟨inner, same, isInner⟩

theorem unary {op : UnaryOp} (depicts : tree.Depicts (.unary op first) form) :
    ∃ operand, form = .unary op operand ∧ refOf operand = first := by
  obtain ⟨contents, same, slots⟩ := depicts.exists_contents
  simp only [Kind.slots, forall₂_holds_one, List.forall₂_nil_left_iff] at slots
  obtain ⟨operand, _, rfl, isOperand, -, rfl⟩ := slots
  exact ⟨operand, same, isOperand⟩

theorem binary {op : BinaryOp} (depicts : tree.Depicts (.binary op first second) form) :
    ∃ left right, form = .binary op left right ∧ refOf left = first ∧ refOf right = second := by
  obtain ⟨contents, same, slots⟩ := depicts.exists_contents
  simp only [Kind.slots, forall₂_holds_one, List.forall₂_nil_left_iff] at slots
  obtain ⟨left, _, rfl, isLeft, -, right, _, rfl, isRight, -, rfl⟩ := slots
  exact ⟨left, right, same, isLeft, isRight⟩

theorem forEach (depicts : tree.Depicts (.forEach first name second third) form) :
    ∃ type collection body, form = .forEach type name collection body ∧ refOf type = first ∧
      refOf collection = second ∧ refOf body = third := by
  obtain ⟨contents, same, slots⟩ := depicts.exists_contents
  simp only [Kind.slots, forall₂_holds_one, List.forall₂_nil_left_iff] at slots
  obtain ⟨type, _, rfl, isType, -, collection, _, rfl, isCollection, -, body, _, rfl, isBody, -,
    rfl⟩ := slots
  exact ⟨type, collection, body, same, isType, isCollection, isBody⟩

theorem invoke (depicts : tree.Depicts (.invoke first range) form) : ∃ callee arguments,
    form = .invoke callee arguments ∧ refOf callee = first ∧
    tree.items range = arguments.map Term.ref := by
  obtain ⟨contents, same, slots⟩ := depicts.exists_contents
  simp only [Kind.slots, forall₂_holds_one, forall₂_holds_many, List.forall₂_nil_left_iff] at slots
  obtain ⟨callee, _, rfl, isCallee, -, arguments, _, rfl, entries, -, rfl⟩ := slots
  exact ⟨callee, arguments, same, isCallee, entries⟩

theorem index (depicts : tree.Depicts (.index first range) form) : ∃ receiver arguments,
    form = .index receiver arguments ∧ refOf receiver = first ∧
      tree.items range = arguments.map Term.ref := by
  obtain ⟨contents, same, slots⟩ := depicts.exists_contents
  simp only [Kind.slots, forall₂_holds_one, forall₂_holds_many, List.forall₂_nil_left_iff] at slots
  obtain ⟨receiver, _, rfl, isReceiver, -, arguments, _, rfl, entries, -, rfl⟩ := slots
  exact ⟨receiver, arguments, same, isReceiver, entries⟩

theorem localDecl (depicts : tree.Depicts (.localDecl first range) form) : ∃ type declarators,
    form = .localDecl type declarators ∧ refOf type = first ∧
      tree.items range = declarators.map Term.ref := by
  obtain ⟨contents, same, slots⟩ := depicts.exists_contents
  simp only [Kind.slots, forall₂_holds_one, forall₂_holds_many, List.forall₂_nil_left_iff] at slots
  obtain ⟨type, _, rfl, isType, -, declarators, _, rfl, entries, -, rfl⟩ := slots
  exact ⟨type, declarators, same, isType, entries⟩

theorem typeRef {rank : Nat} (depicts : tree.Depicts (.typeRef name range rank) form) :
    ∃ arguments, form = .typeRef name arguments rank ∧
    tree.items range = arguments.map Term.ref := by
  obtain ⟨contents, same, slots⟩ := depicts.exists_contents
  simp only [Kind.slots, forall₂_holds_many, List.forall₂_nil_left_iff] at slots
  obtain ⟨arguments, _, rfl, entries, -, rfl⟩ := slots
  exact ⟨arguments, same, entries⟩

theorem lambda {parenthesized : Bool}
    (depicts : tree.Depicts (.lambda range first parenthesized) form) :
    ∃ params body, form = .lambda params body parenthesized ∧
    tree.items range = params.map Term.ref ∧ refOf body = first := by
  obtain ⟨contents, same, slots⟩ := depicts.exists_contents
  simp only [Kind.slots, forall₂_holds_one, forall₂_holds_many, List.forall₂_nil_left_iff] at slots
  obtain ⟨params, _, rfl, entries, -, body, _, rfl, isBody, -, rfl⟩ := slots
  exact ⟨params, body, same, entries, isBody⟩

theorem forLoop {body : Ref}
    (depicts : tree.Depicts (.forLoop first range second others body) form) :
    ∃ declaration initializers condition incrementors body',
      form = .forLoop declaration initializers condition incrementors body' ∧
        refOf declaration = first ∧ tree.items range = initializers.map Term.ref ∧ refOf condition
          = second ∧ tree.items others = incrementors.map Term.ref ∧ refOf body' = body := by
  obtain ⟨contents, same, slots⟩ := depicts.exists_contents
  simp only [Kind.slots, forall₂_holds_one, forall₂_holds_many, List.forall₂_nil_left_iff] at slots
  obtain ⟨declaration, _, rfl, isDeclaration, -, initializers, _, rfl, areInitializers, -,
    condition, _, rfl, isCondition, -, incrementors, _, rfl, areIncrementors, -, body', _, rfl,
    isBody, -, rfl⟩ := slots
  exact ⟨declaration, initializers, condition, incrementors, body', same, isDeclaration,
    areInitializers, isCondition, areIncrementors, isBody⟩

/-- Only a name is shown as one. -/
theorem of_ident (depicts : tree.Depicts kind (.ident name)) : kind = .ident name := by
  have skeleton := depicts.skeleton
  cases kind <;> cases skeleton
  rfl

/-- Only a loop over elements is shown as one. -/
theorem of_forEach {collection body : Option Outline}
    (depicts : tree.Depicts kind (.forEach type name collection body)) :
    kind = .forEach (refOf type) name (refOf collection) (refOf body) := by
  have skeleton := depicts.skeleton
  cases kind <;> try cases skeleton
  obtain ⟨_, _, _, same, rfl, rfl, rfl⟩ := depicts.forEach
  cases same
  rfl

/-- Only a lambda is shown as one. -/
theorem of_lambda {params : List Outline} {body : Option Outline} {parenthesized : Bool}
    (depicts : tree.Depicts kind (.lambda params body parenthesized)) :
    ∃ range, kind = .lambda range (refOf body) parenthesized ∧
    tree.Holds (.many range) (.many params) := by
  have skeleton := depicts.skeleton
  cases kind <;> try cases skeleton
  obtain ⟨holdsParams, holdsBody, -⟩ :=
    List.forall₂_cons.1 depicts.slots |>.imp_right List.forall₂_cons.1
  exact ⟨_, by rw [← holdsBody.1]; rfl, holdsParams⟩

/-- Only a parameter is shown as one. -/
theorem of_param (depicts : tree.Depicts kind (.param type name)) :
    kind = .param (refOf type) name := by
  have skeleton := depicts.skeleton
  cases kind <;> try cases skeleton
  obtain ⟨holdsType, -⟩ := List.forall₂_cons.1 depicts.slots
  rw [← holdsType.1]
  rfl

/-- Only an argument is shown as one. -/
theorem of_argument {modifier : Modifier} {value : Option Outline}
    (depicts : tree.Depicts kind (.argument modifier value)) :
    kind = .argument modifier (refOf value) := by
  have skeleton := depicts.skeleton
  cases kind <;> try cases skeleton
  obtain ⟨holdsValue, -⟩ := List.forall₂_cons.1 depicts.slots
  rw [← holdsValue.1]
  rfl

/-- Only parentheses are shown as such. -/
theorem of_paren {inner : Option Outline} (depicts : tree.Depicts kind (.paren inner)) :
    kind = .paren (refOf inner) := by
  have skeleton := depicts.skeleton
  cases kind <;> try cases skeleton
  obtain ⟨_, same, rfl⟩ := depicts.paren
  cases same
  rfl

/-- Only an operation on one operand is shown as one. -/
theorem of_unary {op : UnaryOp} {operand : Option Outline}
    (depicts : tree.Depicts kind (.unary op operand)) :
    kind = .unary op (refOf operand) := by
  have skeleton := depicts.skeleton
  cases kind <;> try cases skeleton
  obtain ⟨_, same, rfl⟩ := depicts.unary
  cases same
  rfl

/-- Only a member is shown as one. -/
theorem of_member {receiver : Option Outline} {conditional : Bool}
    (depicts : tree.Depicts kind (.member receiver name conditional)) :
    kind = .member (refOf receiver) name conditional := by
  have skeleton := depicts.skeleton
  cases kind <;> try cases skeleton
  obtain ⟨holdsReceiver, -⟩ := List.forall₂_cons.1 depicts.slots
  rw [← holdsReceiver.1]
  rfl

/-- Only a call is shown as one. -/
theorem of_invoke {callee : Option Outline} {arguments : List Outline}
    (depicts : tree.Depicts kind (.invoke callee arguments)) :
    ∃ range, kind = .invoke (refOf callee) range ∧ tree.Holds (.many range) (.many arguments) := by
  have skeleton := depicts.skeleton
  cases kind <;> try cases skeleton
  obtain ⟨holdsCallee, holdsArguments, -⟩ :=
    List.forall₂_cons.1 depicts.slots |>.imp_right List.forall₂_cons.1
  exact ⟨_, by rw [← holdsCallee.1]; rfl, holdsArguments⟩

/-- Only an element access is shown as one. -/
theorem of_index {receiver : Option Outline} {arguments : List Outline}
    (depicts : tree.Depicts kind (.index receiver arguments)) :
    ∃ range, kind = .index (refOf receiver) range ∧ tree.Holds (.many range) (.many arguments) := by
  have skeleton := depicts.skeleton
  cases kind <;> try cases skeleton
  obtain ⟨holdsReceiver, holdsArguments, -⟩ :=
    List.forall₂_cons.1 depicts.slots |>.imp_right List.forall₂_cons.1
  exact ⟨_, by rw [← holdsReceiver.1]; rfl, holdsArguments⟩

/-- Only a declaration is shown as one. -/
theorem of_localDecl {declarators : List Outline}
    (depicts : tree.Depicts kind (.localDecl type declarators)) :
    ∃ range, kind = .localDecl (refOf type) range ∧
    tree.Holds (.many range) (.many declarators) := by
  have skeleton := depicts.skeleton
  cases kind <;> try cases skeleton
  obtain ⟨holdsType, holdsDeclarators, -⟩ :=
    List.forall₂_cons.1 depicts.slots |>.imp_right List.forall₂_cons.1
  exact ⟨_, by rw [← holdsType.1]; rfl, holdsDeclarators⟩

/-- Only a declarator is shown as one. -/
theorem of_declarator {value : Option Outline}
    (depicts : tree.Depicts kind (.declarator name value)) :
    kind = .declarator name (refOf value) := by
  have skeleton := depicts.skeleton
  cases kind <;> try cases skeleton
  obtain ⟨_, same, rfl⟩ := depicts.declarator
  cases same
  rfl

end Depicts

end Tree

end Refactory
