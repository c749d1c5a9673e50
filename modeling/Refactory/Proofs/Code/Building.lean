import Refactory.Proofs.Tree.Copying
import Refactory.Proofs.Tree.Forms

/-!
# What builders make

Each builder makes a node of the terms that it is given (`Tree.Makes`, `Tree.IsNode`). A child that
is absent is no term.
-/
namespace Refactory

namespace Tree

open Term

/-- What an edit makes of some terms. -/
def Makes {α : Type} (edit : Edit α) (tree : Tree) (inputs : List Outline)
    (post : α → List Outline → Prop) : Prop :=
  ∃ result outputs after, edit tree = (result, after) ∧ Builds inputs tree after outputs ∧
    post result outputs

/-- What was made is a node of a form, and the result says where. -/
def IsNode (form : Form Place) (result : Ref) (outputs : List Outline) : Prop :=
  ∃ place : Place, place.ref = result ∧ outputs = [.node place form]

section

variable {α β : Type} {tree : Tree} {inputs others : List Outline}

/-- One edit after another one, which may take what was made and what was not taken. -/
theorem Makes.bind {edit : Edit α} {next : α → Edit β} {post : α → List Outline → Prop}
    {post' : β → List Outline → Prop} (first : Makes edit tree inputs post) (stored : tree.Stored)
    (all : tree.StandsAll (inputs ++ others))
    (second : ∀ result outputs after, post result outputs → Keeps tree after → after.Stored →
      after.StandsAll (outputs ++ others) → Makes (next result) after (outputs ++ others) post') :
    Makes (edit >>= next) tree (inputs ++ others) post' := by
  obtain ⟨result, outputs, middle, edited, builds, posted⟩ := first
  have both := builds.append all
  obtain ⟨result', outputs', after, editedNext, buildsNext, posted'⟩ :=
    second result outputs middle posted builds.keeps (builds.frame.stored stored) both.stands
  refine ⟨result', outputs', after, ?_, both.trans buildsNext, posted'⟩
  change next (edit tree).1 (edit tree).2 = _
  rw [edited, editedNext]

/-- One edit after another one, where what the first one takes is among the terms. -/
theorem Makes.bind_among {edit : Edit α} {next : α → Edit β} {post : α → List Outline → Prop}
    {post' : β → List Outline → Prop} {rest : List Outline} (first : Makes edit tree inputs post)
    (stored : tree.Stored) (all : tree.StandsAll others) (among : (inputs ++ rest).Perm others)
    (second : ∀ result outputs after, post result outputs → after.Stored →
      after.StandsAll (outputs ++ rest) → Makes (next result) after (outputs ++ rest) post') :
    Makes (edit >>= next) tree others post' := by
  have arranged := first.bind stored (all.perm among.symm) fun result outputs after posted _ =>
    second result outputs after posted
  obtain ⟨result, outputs, after, edited, builds, posted⟩ := arranged
  exact ⟨result, outputs, after, edited, builds.of_subset among.subset, posted⟩

/-- An edit that makes something of nothing comes first. -/
theorem Makes.bind_new {edit : Edit α} {next : α → Edit β} {post : α → List Outline → Prop}
    {post' : β → List Outline → Prop} (first : Makes edit tree [] post) (stored : tree.Stored)
    (all : tree.StandsAll others)
    (second : ∀ result outputs after, post result outputs → Keeps tree after → after.Stored →
      after.StandsAll (outputs ++ others) → Makes (next result) after (outputs ++ others) post') :
    Makes (edit >>= next) tree others post' := first.bind stored all second

/-- One edit after another one that takes all terms. -/
theorem Makes.bind_whole {edit : Edit α} {next : α → Edit β} {post : α → List Outline → Prop}
    {post' : β → List Outline → Prop} (first : Makes edit tree inputs post) (stored : tree.Stored)
    (all : tree.StandsAll inputs)
    (second : ∀ result outputs after, post result outputs → after.Stored → after.StandsAll outputs →
      Makes (next result) after outputs post') : Makes (edit >>= next) tree inputs post' := by
  refine @Makes.bind_among _ _ _ _ _ _ _ _ _ [] first stored all (by simp)
    fun result outputs after posted => ?_
  simpa using second result outputs after posted

theorem Makes.pure {result : α} {post : α → List Outline → Prop} (all : tree.StandsAll inputs)
    (posted : post result inputs) : Makes (pure result : Edit α) tree inputs post :=
  ⟨result, inputs, tree, rfl, .refl all, posted⟩

theorem Makes.mono {edit : Edit α} {post post' : α → List Outline → Prop}
    (makes : Makes edit tree inputs post)
    (weaken : ∀ result outputs, post result outputs → post' result outputs) :
    Makes edit tree inputs post' := by
  obtain ⟨result, outputs, after, edited, builds, posted⟩ := makes
  exact ⟨result, outputs, after, edited, builds, weaken result outputs posted⟩

/-- More terms may be named as taken. -/
theorem Makes.of_subset {edit : Edit α} {post : α → List Outline → Prop}
    (makes : Makes edit tree inputs post)
    (more : inputs ⊆ others) : Makes edit tree others post := by
  obtain ⟨result, outputs, after, edited, builds, posted⟩ := makes
  exact ⟨result, outputs, after, edited, builds.of_subset more, posted⟩

/-- The terms may be taken in any order. -/
theorem Makes.perm {edit : Edit α} {post : α → List Outline → Prop}
    (makes : Makes edit tree inputs post)
    (same : inputs.Perm others) : Makes edit tree others post :=
  makes.of_subset same.subset

/-- A position for one child holds an optional term that stands. -/
theorem StandsAll.holds {child : Option Outline} (all : tree.StandsAll inputs)
    (given : child.toList ⊆ inputs) : tree.Holds (.one (refOf child)) (.one child) := by
  refine ⟨rfl, fun term member => ?_⟩
  exact (all.hasRef
    (List.mem_flatMap.2 ⟨term, given (by simpa using member), ref_mem_refs term⟩)).ne_none

end

end Tree

namespace Build

open Term Refactory.Tree

variable {tree : Tree}

/-- A node is made of its children. -/
theorem alloc_makes {kind : NodeKind} {form : Form Place} (span : Span) (stored : tree.Stored)
    (depicts : tree.Depicts kind form) (all : tree.StandsAll (parts form)) :
    Makes (Tree.alloc kind span) tree (parts form) (IsNode form) :=
  ⟨_, _, _, rfl, alloc_builds stored depicts all span, ⟨_, rfl, rfl⟩⟩

theorem node_makes {kind : NodeKind} {form : Form Place} (stored : tree.Stored)
    (depicts : tree.Depicts kind form) (all : tree.StandsAll (parts form)) :
    Makes (node kind) tree (parts form) (IsNode form) := alloc_makes .nowhere stored depicts all

/-- A node with a list is made of its children, the list being added first. -/
theorem allocWith_makes {kind : Range → NodeKind} {form : Form Place} {items : List Outline}
    (span : Tree → Span)
    (stored : tree.Stored) (all : tree.StandsAll (parts form)) (given : items ⊆ parts form)
    (depicts : ∀ (range : Range) (after : Tree), after.Holds (.many range) (.many items) →
      after.StandsAll (parts form) → after.Depicts (kind range) form) :
    Makes (do Tree.alloc (kind (← Tree.allocList (items.map Term.ref))) (span (← get))) tree
    (parts form) (IsNode form) := by
  have hasRef : ∀ ref ∈ items.map Term.ref, tree.HasRef ref := by
    intro ref member
    obtain ⟨term, inside, rfl⟩ := List.mem_map.1 member
    exact all.hasRef (List.mem_flatMap.2 ⟨term, given inside, ref_mem_refs term⟩)
  have grown := (Builds.refl all).grow (allocList_frame hasRef)
  obtain ⟨result, outputs, after, made, builds, isNode⟩ := alloc_makes (span _)
    (grown.frame.stored stored) (depicts _ _ (allocList_holds items) grown.stands) grown.stands
  exact ⟨result, outputs, after, made, grown.trans builds, isNode⟩

theorem nodeWith_makes {kind : Range → NodeKind} {form : Form Place} {items : List Outline}
    (stored : tree.Stored) (all : tree.StandsAll (parts form)) (given : items ⊆ parts form)
    (depicts : ∀ (range : Range) (after : Tree), after.Holds (.many range) (.many items) →
      after.StandsAll (parts form) → after.Depicts (kind range) form) :
    Makes (do node (kind (← Tree.allocList (items.map Term.ref)))) tree (parts form)
    (IsNode form) :=
  allocWith_makes (fun _ => .nowhere) stored all given depicts

theorem ident_makes (stored : tree.Stored) (name : String) :
    Makes (ident name) tree [] (IsNode (.ident name)) :=
  @node_makes tree (.ident name) (.ident name) stored ⟨.nil, rfl⟩ .nil

theorem int_makes (stored : tree.Stored) (value : Int) :
    Makes (int value) tree [] (IsNode (.int value)) :=
  @node_makes tree (.int value) (.int value) stored ⟨.nil, rfl⟩ .nil

/-- A node with one child is made of it. -/
theorem single_makes {kind : NodeKind} {form : Form Place} {child : Option Outline}
    (stored : tree.Stored) (all : tree.StandsAll child.toList)
    (refs : kind.slots = [.one (refOf child)]) (slots : form.slots = [.one child])
    (skeleton : kind.skeleton = form.skeleton) :
    Makes (node kind) tree child.toList (IsNode form) := by
  have same : parts form = child.toList := by rw [parts, slots]; simp
  have holds : tree.Holds (.one (refOf child)) (.one child) := all.holds fun _ inside => inside
  exact same ▸ node_makes stored ⟨refs ▸ slots ▸ .cons holds .nil, skeleton⟩ (same ▸ all)

theorem paren_makes {inner : Option Outline} (stored : tree.Stored)
    (all : tree.StandsAll inner.toList) :
    Makes (paren (refOf inner)) tree inner.toList (IsNode (.paren inner)) :=
  single_makes stored all rfl rfl rfl

theorem unary_makes {operand : Option Outline} (op : UnaryOp) (stored : tree.Stored)
    (all : tree.StandsAll operand.toList) :
    Makes (unary op (refOf operand)) tree operand.toList (IsNode (.unary op operand)) :=
  single_makes stored all rfl rfl rfl

theorem binary_makes {left right : Option Outline} (op : BinaryOp) (stored : tree.Stored)
    (all : tree.StandsAll (left.toList ++ right.toList)) :
    Makes (binary op (refOf left) (refOf right)) tree (left.toList ++ right.toList)
      (IsNode (.binary op left right)) := by
  have same : parts (.binary op left right) = left.toList ++ right.toList := by simp [parts]
  rw [← same] at all ⊢
  have holdsLeft : tree.Holds (.one (refOf left)) (.one left) := all.holds (by simp [parts])
  have holdsRight : tree.Holds (.one (refOf right)) (.one right) := all.holds (by simp [parts])
  exact node_makes stored ⟨.cons holdsLeft (.cons holdsRight .nil), rfl⟩ all

theorem member_makes {receiver : Option Outline} (name : String) (conditional : Bool)
    (stored : tree.Stored) (all : tree.StandsAll receiver.toList) :
    Makes (member (refOf receiver) name conditional) tree receiver.toList
      (IsNode (.member receiver name conditional)) :=
  single_makes stored all rfl rfl rfl

theorem argument_makes {value : Option Outline} (stored : tree.Stored)
    (all : tree.StandsAll value.toList) :
    Makes (argument (refOf value)) tree value.toList (IsNode (.argument .plain value)) :=
  single_makes stored all rfl rfl rfl

theorem index_makes {receiver : Option Outline} {position : Outline} (stored : tree.Stored)
    (all : tree.StandsAll (receiver.toList ++ [position])) :
    Makes (index (refOf receiver) position.ref) tree (receiver.toList ++ [position])
      (IsNode (.index receiver [position])) := by
  have same : parts (.index receiver [position]) = receiver.toList ++ [position] := by simp [parts]
  rw [← same] at all ⊢
  exact @nodeWith_makes tree (.index (refOf receiver)) (.index receiver [position])
    [position] stored all
    (by simp [parts]) fun _ _ holds all =>
      ⟨.cons (all.holds (by simp [parts])) (.cons holds .nil), rfl⟩

theorem typedParam_makes {type : Option Outline} (name : String) (stored : tree.Stored)
    (all : tree.StandsAll type.toList) :
    Makes (node (.param (refOf type) name)) tree type.toList (IsNode (.param type name)) :=
  single_makes stored all rfl rfl rfl

theorem param_makes (stored : tree.Stored) (name : String) :
    Makes (param name) tree [] (IsNode (.param none name)) :=
    @typedParam_makes tree none name stored .nil

theorem lambda_makes {param : Outline} {body : Option Outline} (parenthesized : Bool)
    (stored : tree.Stored) (all : tree.StandsAll (param :: body.toList)) :
    Makes (lambda param.ref (refOf body) parenthesized) tree (param :: body.toList)
      (IsNode (.lambda [param] body parenthesized)) := by
  have same : parts (.lambda [param] body parenthesized) = param :: body.toList := by simp [parts]
  rw [← same] at all ⊢
  exact @nodeWith_makes tree (.lambda · (refOf body) parenthesized)
    (.lambda [param] body parenthesized)
    [param] stored all (by simp [parts]) fun _ _ holds all =>
      ⟨.cons holds (.cons (all.holds (by simp [parts])) .nil), rfl⟩

theorem block_makes {statements : List Outline} (stored : tree.Stored)
    (all : tree.StandsAll statements) :
    Makes (block (statements.map Term.ref)) tree statements (IsNode (.block statements)) := by
  have same : parts (.block statements) = statements := by simp [parts]
  rw [← same] at all
  have made :=
    @nodeWith_makes tree .block (.block statements) statements stored all (by simp [parts])
    fun _ _ holds _ => ⟨.cons holds .nil, rfl⟩
  rwa [same] at made

theorem typeRef_makes (stored : tree.Stored) (name : String) :
    Makes (typeRef name) tree [] (IsNode (.typeRef name [] 0)) :=
  @node_makes tree (.typeRef name .empty 0) (.typeRef name [] 0) stored
    ⟨.cons ⟨by simp [items, Range.empty], Nat.zero_le _⟩ .nil, rfl⟩ .nil

theorem declarator_makes {value : Option Outline} (name : String) (stored : tree.Stored)
    (all : tree.StandsAll value.toList) :
    Makes (node (.declarator name (refOf value))) tree value.toList
    (IsNode (.declarator name value)) :=
  single_makes stored all rfl rfl rfl

/-- The form of a declaration of one local variable. -/
def IsLocalDecl (type name : String) (value : Option Outline) (result : Ref)
    (outputs : List Outline) :
    Prop :=
  ∃ typePlace declaratorPlace, IsNode (.localDecl (some (.node typePlace (.typeRef type [] 0)))
    [.node declaratorPlace (.declarator name value)]) result outputs

theorem localDecl_makes {value : Option Outline} (type name : String) (stored : tree.Stored)
    (all : tree.StandsAll value.toList) :
    Makes (localDecl type name (refOf value)) tree value.toList (IsLocalDecl type name value) := by
  refine (typeRef_makes stored type).bind_new stored all ?_
  rintro _ _ middle ⟨typePlace, rfl, rfl⟩ - stored all
  set type' : Outline := .node typePlace (.typeRef type [] 0)
  have both : middle.StandsAll (value.toList ++ [type']) := all.perm List.perm_append_comm
  refine Makes.perm ?_ List.perm_append_comm
  refine (declarator_makes name stored (StandsAll.append_iff.1 both).1).bind stored both ?_
  rintro _ _ after ⟨place, rfl, rfl⟩ - stored all
  set declarator : Outline := .node place (.declarator name value)
  have same : parts (.localDecl (some type') [declarator]) = [type', declarator] := by simp [parts]
  have made :=
    @nodeWith_makes after (.localDecl typePlace.ref) (.localDecl (some type') [declarator])
    [declarator] stored (same ▸ all.perm (.swap _ _ _)) (by simp [parts]) fun _ _ holds all =>
      ⟨.cons (@StandsAll.holds _ _ (some type') all (by simp [parts])) (.cons holds .nil), rfl⟩
  rw [same] at made
  exact (made.perm (.swap _ _ _)).mono fun _ _ isNode => ⟨typePlace, place, isNode⟩

/-- A value as a plain argument. -/
def IsArgument (value argument : Outline) : Prop :=
    ∃ place, argument = .node place (.argument .plain (some value))

/-- Arguments are made of values one after the other. -/
theorem arguments_make {values : List Outline} (stored : tree.Stored)
    (all : tree.StandsAll values) :
    Makes ((values.map Term.ref).mapM argument) tree values fun result outputs =>
      result = outputs.map Term.ref ∧ List.Forall₂ IsArgument values outputs := by
  induction values generalizing tree with
  | nil => exact .pure .nil ⟨rfl, .nil⟩
  | cons value values ih =>
    rw [List.map_cons, List.mapM_cons]
    have standsValue := StandsAll.singleton_iff.2 (StandsAll.cons_iff.1 all).1
    have first := @argument_makes tree (some value) stored standsValue
    refine first.bind stored all ?_
    rintro _ _ middle ⟨place, rfl, rfl⟩ - stored all
    have both := all.perm List.perm_append_comm
    refine Makes.perm ?_ List.perm_append_comm
    refine (ih stored (StandsAll.append_iff.1 both).1).bind stored both ?_
    rintro _ arguments after ⟨rfl, areArguments⟩ - stored all
    refine Makes.perm
      (.pure (all.perm List.perm_append_comm) ⟨rfl, .cons ⟨place, rfl⟩ areArguments⟩)
      List.perm_append_comm

/-- The form of a call with plain arguments. -/
def IsInvoke (callee : Option Outline) (values : List Outline) (result : Ref)
    (outputs : List Outline) :
    Prop :=
  ∃ arguments, List.Forall₂ IsArgument values arguments ∧
    IsNode (.invoke callee arguments) result outputs

theorem invoke_makes {callee : Option Outline} {values : List Outline} (stored : tree.Stored)
    (all : tree.StandsAll (callee.toList ++ values)) :
    Makes (invoke (refOf callee) (values.map Term.ref)) tree (callee.toList ++ values)
      (IsInvoke callee values) := by
  have both : tree.StandsAll (values ++ callee.toList) := all.perm List.perm_append_comm
  refine Makes.perm ?_ List.perm_append_comm
  refine (arguments_make stored (StandsAll.append_iff.1 both).1).bind stored both ?_
  rintro _ arguments after ⟨rfl, areArguments⟩ - stored all
  have same : parts (.invoke callee arguments) = callee.toList ++ arguments := by simp [parts]
  have made :=
    @nodeWith_makes after (.invoke (refOf callee)) (.invoke callee arguments) arguments stored
      (same ▸ all.perm List.perm_append_comm) (by simp [parts]) fun _ _ holds all =>
        ⟨.cons (all.holds (by simp [parts])) (.cons holds .nil), rfl⟩
  rw [same] at made
  exact (made.perm List.perm_append_comm).mono fun _ _ isNode => ⟨arguments, areArguments, isNode⟩

/-- What was made has the shape of a term, and the result says where. -/
def IsCopy (term : Outline) (result : Ref) (outputs : List Outline) : Prop :=
  ∃ copy : Outline, result = copy.ref ∧ outputs = [copy] ∧ copy.shape = term.shape

/-- A copy of a node is made of nothing. -/
theorem duplicate_makes {term : Outline} (stored : tree.Stored) (shown : term.All tree.Shows)
    (once : term.refs.Nodup) : Makes (Tree.duplicate term.ref) tree [] fun result outputs =>
      ∃ copy, result = copy.ref ∧ outputs = [copy] ∧ Records copy (term.map Place.span) := by
  obtain ⟨copy, after, copied, builds, records⟩ := duplicate_copies stored shown once
  exact ⟨copy.ref, [copy], after, copied, builds, copy, rfl, rfl, records⟩

/-- A copy of a parameter is made of nothing. -/
theorem copyOfParam_makes {param : Outline} {type : Ref} {name : String} (stored : tree.Stored)
    (shown : param.All tree.Shows) (once : param.refs.Nodup)
    (isParam : tree.kind param.ref = .param type name) :
    Makes (copyOfParam param.ref) tree [] (IsCopy param) := by
  have depicts := shown.here.depicts
  rw [isParam] at depicts
  obtain ⟨type', form, rfl⟩ := depicts.param
  have shape (copy : Option Outline) (same : copy.map Term.shape = type'.map Term.shape)
      (place : Place) :
      (Term.node place (.param copy name)).shape = param.shape := by
    rcases param with ⟨other, form'⟩
    obtain rfl : form' = .param type' name := form
    simp [same]
  rw [Makes, copyOfParam, Edit.get_bind, isParam]
  cases type' with
  | none =>
    refine (param_makes stored name).mono ?_
    rintro _ _ ⟨place, rfl, rfl⟩
    exact ⟨_, rfl, rfl, shape none rfl place⟩
  | some type =>
    have isChild : type ∈ param.children := by simp [Term.children, form, parts]
    obtain ⟨number, -, place⟩ := (shown.child isChild).here.hasRef
    have copies := duplicate_makes stored (shown.child isChild)
      (once.sublist (refs_sublist (child_mem_subterms isChild)))
    simp only [refOf_some, place] at copies ⊢
    refine copies.bind_new stored .nil ?_
    rintro _ _ after ⟨copy, rfl, rfl, records⟩ - stored all
    refine (@typedParam_makes after (some copy) name stored all).mono ?_
    rintro _ _ ⟨place, rfl, rfl⟩
    refine ⟨_, rfl, rfl, shape (some copy) (congrArg some ?_) place⟩
    have same := congrArg Term.shape records
    rwa [shape_map, shape_map] at same

end Build

end Refactory
