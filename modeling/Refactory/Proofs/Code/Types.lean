import Refactory.Code.CallRun
import Refactory.Code.Composition
import Refactory.Proofs.Tree.Types

/-!
# Code that is built keeps types

The edits that build, copy, combine and search code keep types: a declaration is built with a type,
and what is replaced is a reference, which is no type.
-/
namespace Refactory

namespace Build

open Refactory.Tree

variable {tree : Tree}

/-- A node that is no type and has types for its types is built. -/
theorem node_keepsTypes {kind : NodeKind} (fits : tree.FitsTypes kind)
    (noType : kind.isType = false) :
    Edit.KeepsTypes (node kind) tree fun ref after => after.IsOther ref := alloc_isOther fits noType

theorem ident_keepsTypes
    (name : String) : Edit.KeepsTypes (ident name) tree fun ref after => after.IsOther ref :=
  node_keepsTypes trivial rfl

theorem int_keepsTypes
    (value : Int) : Edit.KeepsTypes (int value) tree fun ref after => after.IsOther ref :=
  node_keepsTypes trivial rfl

theorem paren_keepsTypes
    (inner : Ref) : Edit.KeepsTypes (paren inner) tree fun ref after => after.IsOther ref :=
  node_keepsTypes trivial rfl

theorem unary_keepsTypes (op : UnaryOp) (operand : Ref) :
    Edit.KeepsTypes (unary op operand) tree fun ref after => after.IsOther ref :=
    node_keepsTypes trivial rfl

theorem binary_keepsTypes (op : BinaryOp) (left right : Ref) :
    Edit.KeepsTypes (binary op left right) tree fun ref after => after.IsOther ref :=
    node_keepsTypes trivial rfl

theorem member_keepsTypes (receiver : Ref) (name : String) (conditional : Bool) :
    Edit.KeepsTypes (member receiver name conditional) tree fun ref after => after.IsOther ref :=
  node_keepsTypes trivial rfl

theorem argument_keepsTypes
    (value : Ref) : Edit.KeepsTypes (argument value) tree fun ref after => after.IsOther ref :=
  node_keepsTypes trivial rfl

theorem param_keepsTypes
    (name : String) : Edit.KeepsTypes (param name) tree fun ref after => after.IsOther ref :=
  node_keepsTypes trivial rfl

theorem index_keepsTypes (receiver position : Ref) :
    Edit.KeepsTypes (index receiver position) tree fun ref after => after.IsOther ref :=
  (allocList_keepsTypes _).bind fun _ _ _ _ => node_keepsTypes trivial rfl

theorem lambda_keepsTypes (param body : Ref) (parenthesized : Bool) :
    Edit.KeepsTypes (lambda param body parenthesized) tree fun ref after => after.IsOther ref :=
  (allocList_keepsTypes _).bind fun _ _ _ _ => node_keepsTypes trivial rfl

theorem block_keepsTypes (statements : List Ref) :
    Edit.KeepsTypes (block statements) tree fun ref after => after.IsOther ref :=
  (allocList_keepsTypes _).bind fun _ _ _ _ => node_keepsTypes trivial rfl

theorem invoke_keepsTypes (callee : Ref) (values : List Ref) :
    Edit.KeepsTypes (invoke callee values) tree fun ref after => after.IsOther ref := by
  have arguments : Edit.KeepsTypes (values.mapM argument) tree fun refs after =>
      List.Forall₂ (fun _ _ => True) values refs :=
    .mapM (fun _ _ _ _ _ => id) fun value _ _ _ => (argument_keepsTypes value).weaken
  exact arguments.bind fun _ _ _ _ => (allocList_keepsTypes _).bind fun _ _ _ _ =>
    node_keepsTypes trivial rfl

theorem typeRef_keepsTypes
    (name : String) : Edit.KeepsTypes (typeRef name) tree fun ref after => after.IsType ref := by
  have fits : tree.FitsTypes (.typeRef name .empty 0) :=
    ⟨Nat.zero_le _, by simp [items, Range.empty]⟩
  exact (alloc_keepsTypes fits _).mono fun _ _ _ isNew => isNew.2.2 rfl

theorem localDecl_keepsTypes (type name : String) (value : Ref) :
    Edit.KeepsTypes (localDecl type name value) tree fun ref after => after.IsOther ref := by
  refine (typeRef_keepsTypes type).bind fun type first _ isType => ?_
  refine .bind (node_keepsTypes trivial rfl) fun declarator second keeps _ => ?_
  refine (allocList_keepsTypes _).bind fun declarators third keeps' _ => node_keepsTypes ?_ rfl
  exact fun _ => keeps'.isType_of (keeps.isType_of isType)

theorem copyOfParam_keepsTypes
    (param : Ref) : Edit.KeepsTypes (copyOfParam param) tree fun _ _ => True := by
  refine .get_bind ?_
  split
  · exact .weaken (node_keepsTypes trivial rfl)
  · exact (duplicate_keepsTypes _).bind fun _ _ _ _ => .weaken (node_keepsTypes trivial rfl)
  · exact .pure trivial

end Build

/-- No reference of a referent is a type. -/
def Referent.SparesTypes (referent : Referent) (tree : Tree) : Prop :=
  ∀ reference, referent = .synthesized reference → tree.IsOther reference

namespace Referent.SparesTypes

open Refactory.Tree

variable {referent : Referent} {tree after : Tree}

theorem of_keeps (spares : referent.SparesTypes tree) (keeps : tree.KeepsTypes after) :
    referent.SparesTypes after :=
  fun reference same => keeps.isOther_of (spares reference same)

theorem symbol (id : SymbolId) : (Referent.symbol id).SparesTypes tree :=
    fun _ same => Referent.noConfusion same

/-- Where a referent is, there is no type. -/
theorem not_isType (spares : referent.SparesTypes tree) {model : Model} {ref : Ref}
    (isAt : referent.isAt tree model ref) : ¬tree.IsType ref := by
  cases referent with
  | symbol id =>
    intro isType
    rw [Referent.isAt] at isAt
    split at isAt
    · rename_i isName
      simp [IsType, isName, Kind.isType] at isType
    · cases isAt
  | synthesized reference =>
    obtain rfl : ref = reference := eq_of_beq isAt
    exact (spares ref rfl).2

end Referent.SparesTypes

namespace Tree

variable {tree : Tree} {referent : Referent}

/-- A rule that replaces references keeps the types, whatever is put in the place of a reference. -/
theorem sparesTypes_of_isAt {model : Model} {replace : Nat → Ref → Edit Verdict}
    (spares : referent.SparesTypes tree)
    (keepsTypes : ∀ count ref middle, Edit.KeepsTypes (replace count ref) middle fun _ _ => True) :
    Rule.SparesTypes (fun count ref => do
      if referent.isAt (← get) model ref then replace count ref else return .rebuild) tree := by
  intro count ref middle keeps
  refine .get_bind (.ite (fun isAt => ?_) fun _ => .pure fun _ => rfl)
  exact (keepsTypes count ref middle).mono fun _ _ _ _ isType =>
    absurd isType ((spares.of_keeps keeps).not_isType isAt)

/-- Renaming references keeps the types. -/
theorem renameReferences_keepsTypes (spares : referent.SparesTypes tree) (model : Model)
    (name : String) (ref : Ref) :
    Edit.KeepsTypes (renameReferences model referent name ref) tree fun _ _ => True := by
  refine (fold_keepsTypes (sparesTypes_of_isAt spares fun count ref middle => ?_) ref).bind
    fun _ _ _ _ => .pure trivial
  exact (Build.ident_keepsTypes name).bind fun _ _ _ _ => .pure trivial

/-- Putting an expression in the place of references keeps the types. -/
theorem substituteReferences_keepsTypes (spares : referent.SparesTypes tree) (model : Model)
    (replacement ref : Ref) :
    Edit.KeepsTypes (substituteReferences model referent replacement ref) tree fun _ _ => True := by
  refine (fold_keepsTypes (sparesTypes_of_isAt spares fun count current middle => ?_) ref).bind
    fun _ _ _ _ => .pure trivial
  have put (value : Ref) (after : Tree) : Edit.KeepsTypes (do
      let tree ← get
      if current =
        ref || tree.isArgumentValue current || tree.isPrimary value then return Verdict.become value
      else return .become (← Build.paren value) : Edit Verdict) after fun _ _ => True :=
    .get_bind (.ite (fun _ => .pure trivial) fun _ =>
      (Build.paren_keepsTypes value).bind fun _ _ _ _ => .pure trivial)
  split
  · exact put _ _
  · exact (duplicate_keepsTypes _).bind fun value _ _ _ => put value _

/-- Naming the elements of a collection keeps the types. -/
theorem nameElements_keepsTypes (model : Model) (counter : SymbolId) (collection : Ref)
    (name : String) (ref : Ref) :
    Edit.KeepsTypes (nameElements model counter collection name ref) tree fun _ _ => True := by
  refine fold_keepsTypes (fun count ref middle keeps => ?_) ref
  refine .get_bind (.ite (fun isElement => ?_) fun _ => .pure fun _ => rfl)
  have noType : ¬middle.IsType ref := by
    intro isType
    rw [isElementAt] at isElement
    split at isElement
    · rename_i isIndex
      simp [IsType, isIndex, Kind.isType] at isType
    · cases isElement
  exact (Build.ident_keepsTypes name).bind fun _ _ _ _ => .pure fun isType => absurd isType noType

/-- Indexing the elements of a collection keeps the types. -/
theorem indexElements_keepsTypes (model : Model) (element : SymbolId) (collection : Ref)
    (counter : String) (ref : Ref) :
    Edit.KeepsTypes (indexElements model element collection counter ref) tree fun _ _ => True := by
  refine (fold_keepsTypes
    (sparesTypes_of_isAt (.symbol element) fun count current middle => ?_) ref).bind
    fun _ _ _ _ => .pure trivial
  refine (duplicate_keepsTypes collection).bind fun receiver _ _ _ => ?_
  refine (Build.ident_keepsTypes counter).bind fun position _ _ _ => ?_
  exact (Build.index_keepsTypes receiver position).bind fun _ _ _ _ => .pure trivial

end Tree

namespace Tree

variable {tree : Tree} {ref : Ref}

/-- Neither a call nor the access to the called member is a type. -/
theorem isOther_of_calledMember? {called : CalledMember}
    (found : tree.calledMember? ref = some called) :
    tree.IsOther ref ∧ tree.IsOther called.access := by
  rw [calledMember?] at found
  split at found
  · rename_i isCall
    split at found
    · rename_i isAccess
      obtain rfl := Option.some.inj found
      exact ⟨isOther_of_kind isCall (by simp) rfl,
        isOther_of_kind isAccess (by simp) rfl⟩
    · cases found
  · cases found

theorem isOther_of_isCallOf {method : String} (isCall : tree.isCallOf method ref) :
    tree.IsOther ref := by
  obtain ⟨called, found, -⟩ := (Option.any_eq_true _ _).1 (Bool.and_eq_true_iff.1 isCall).1
  exact (isOther_of_calledMember? found).1

end Tree

namespace Abstraction

open Refactory.Tree

variable {tree after : Tree}

/-- No reference to the parameter of a function is a type. -/
def SparesTypes (function : Abstraction) (tree : Tree) : Prop := function.referent.SparesTypes tree

/-- The function that an expression denotes is found, or made up, with the types kept. -/
theorem of?_keepsTypes (model : Model) (placeholder : String) (value : Ref) :
    Edit.KeepsTypes (of? model placeholder value) tree fun function after =>
    ∀ found ∈ function, found.SparesTypes after := by
  refine .get_bind ?_
  split
  · refine .pure fun found isFound => ?_
    obtain ⟨symbol, -, rfl⟩ := Option.map_eq_some_iff.1 isFound
    exact .symbol symbol
  · refine .ite (fun _ => ?_) fun _ => .pure fun _ isFound => absurd isFound (Option.not_mem_none _)
    refine (duplicate_keepsTypes value).bind fun path _ _ _ => ?_
    refine (Build.ident_keepsTypes placeholder).bind fun reference _ _ isOther => ?_
    refine (Build.invoke_keepsTypes path [reference]).bind fun body final keeps _ =>
      .pure fun found isFound => ?_
    obtain rfl := Option.mem_some_iff.1 isFound
    rintro _ ⟨rfl⟩
    exact keeps.isOther_of isOther

theorem operand_keepsTypes {predicate : Abstraction} (spares : predicate.SparesTypes tree)
    (model : Model)
    (name : String) : Edit.KeepsTypes (predicate.operand model name) tree fun _ _ => True := by
  refine (renameReferences_keepsTypes spares model name _).bind fun body _ _ _ =>
    .get_bind (.ite (fun _ => .pure trivial) fun _ => ?_)
  exact (Build.paren_keepsTypes body).weaken

theorem conjoinOnto_keepsTypes {predicates : List Abstraction}
    (spares : ∀ other ∈ predicates, other.SparesTypes tree)
    (model : Model) (name : String) (conjunction : Ref) :
    Edit.KeepsTypes (conjoinOnto model name conjunction predicates) tree fun _ _ => True := by
  induction predicates generalizing tree conjunction with
  | nil => exact .pure trivial
  | cons predicate predicates ih =>
    refine (operand_keepsTypes (spares _ (.head _)) model name).bind fun operand _ keeps _ => ?_
    refine (Build.binary_keepsTypes .and conjunction operand).bind fun conjunction _ keeps' _ => ?_
    exact ih (fun other member =>
      (spares other (.tail _ member)).of_keeps (keeps.trans keeps')) conjunction

/-- Joining predicates keeps the types. -/
theorem conjoin_keepsTypes {first : Abstraction} {others : List Abstraction}
    (spares : ∀ function ∈ first :: others, function.SparesTypes tree) (model : Model)
    (name : String) :
    Edit.KeepsTypes (conjoin model name first others) tree fun _ _ => True := by
  refine (operand_keepsTypes (spares first (.head _)) model name).bind fun operand _ keeps _ => ?_
  exact conjoinOnto_keepsTypes
    (fun other member => (spares other (.tail _ member)).of_keeps keeps) model name operand

theorem composeOnto_keepsTypes {functions : List Abstraction}
    (spares : ∀ other ∈ functions, other.SparesTypes tree) (model : Model) (composed : Ref) :
    Edit.KeepsTypes (composeOnto model composed functions) tree fun _ _ => True := by
  induction functions generalizing tree composed with
  | nil => exact .pure trivial
  | cons function functions ih =>
    refine (substituteReferences_keepsTypes (spares _ (.head _)) model composed _).bind
      fun composed _ keeps _ => ?_
    exact ih (fun other member => (spares other (.tail _ member)).of_keeps keeps) composed

/-- Composing functions keeps the types. -/
theorem compose_keepsTypes {first : Abstraction} {others : List Abstraction}
    (spares : ∀ function ∈ first :: others, function.SparesTypes tree) (model : Model)
    (name : String) :
    Edit.KeepsTypes (compose model name first others) tree fun _ _ => True := by
  refine (renameReferences_keepsTypes (spares first (.head _)) model name _).bind
    fun body _ keeps _ => ?_
  exact composeOnto_keepsTypes
    (fun other member => (spares other (.tail _ member)).of_keeps keeps) model body

end Abstraction

namespace CallRun

open Refactory.Tree

variable {tree : Tree}

/-- The functions of calls are found with the types kept. -/
theorem functionsOf?_keepsTypes (model : Model) (placeholder : String) (accepts : Acceptance)
    (place : Nat)
    (calls : List Ref) : Edit.KeepsTypes (functionsOf? model placeholder accepts place calls) tree
      fun functions after => ∀ found ∈ functions, ∀ function ∈ found,
      function.SparesTypes after := by
  induction calls generalizing tree place with
  | nil => exact .pure fun found isFound function member => by cases isFound; cases member
  | cons call calls ih =>
    rw [functionsOf?]
    refine .get_bind ?_
    have nothing {middle : Tree} :
        Edit.KeepsTypes (pure none : Edit (Option (List Abstraction))) middle fun functions after =>
        ∀ found ∈ functions, ∀ function ∈ found, function.SparesTypes after :=
      .pure fun _ isFound => absurd isFound (Option.not_mem_none _)
    split
    · rename_i value _
      refine (Abstraction.of?_keepsTypes model placeholder value).bind
        fun function middle _ spares => ?_
      split
      · rename_i function
        refine .get_bind (.ite (fun _ => ?_) fun _ => nothing)
        refine (ih (place + 1)).bind fun others after keeps sparesOthers =>
          .pure fun found isFound => ?_
        obtain ⟨others, isOthers, rfl⟩ := Option.map_eq_some_iff.1 isFound
        intro other member
        rcases List.mem_cons.1 member with rfl | member
        · exact (spares other rfl).of_keeps keeps
        · exact sparesOthers others isOthers other member
      · exact nothing
    · exact nothing

/-- The outermost call of a run is no type, since the call that the search for it starts from is
none. -/
theorem isOther_outermostCall {call : Ref} (method : String) (isOther : tree.IsOther call) :
    tree.IsOther (tree.outermostCall method call) := by
  rw [outermostCall]
  generalize tree.depthBound = bound
  induction bound generalizing call with
  | zero => exact isOther
  | succ bound ih =>
    rw [outermostCallWithin]
    split
    · rename_i around found
      refine ih ?_
      rw [callAround?] at found
      split at found
      · cases found
      · split at found
        · simp only at found
          split at found
          · rename_i isAround
            obtain rfl := Option.some.inj found
            simp only [Bool.and_eq_true] at isAround
            exact isOther_of_isCallOf isAround.2
          · cases found
        · cases found
    · exact isOther

/-- A run of calls is searched for with the types kept. -/
theorem searchAmong_keepsTypes (model : Model) (placeholder method : String) (accepts : Acceptance)
    (seen candidates : List Ref) :
    Edit.KeepsTypes (searchAmong model placeholder method accepts seen candidates) tree
      fun search after => ∀ run ∈ search.found, after.IsOther run.outer ∧
        ∀ function ∈ run.functions, function.SparesTypes after := by
  induction candidates generalizing tree seen with
  | nil => exact .pure fun _ isFound => absurd isFound (Option.not_mem_none _)
  | cons candidate candidates ih =>
    rw [searchAmong]
    refine .get_bind (.ite (fun _ => ih seen) fun isCall => ?_)
    have isOther : tree.IsOther candidate := by
      simp only [Bool.or_eq_true, Bool.not_eq_true', not_or, Bool.not_eq_false] at isCall
      obtain ⟨called, found, -⟩ := (Option.any_eq_true _ _).1 isCall.2
      exact (isOther_of_calledMember? found).1
    refine (functionsOf?_keepsTypes model placeholder accepts 0 _).bind
      fun functions middle keeps spares => ?_
    split
    · rename_i first others _ _
      refine .pure fun run isRun => ?_
      obtain rfl := Option.mem_some_iff.1 isRun
      exact ⟨keeps.isOther_of (isOther_outermostCall method isOther), spares _ rfl⟩
    · exact (ih _).bind fun search after _ found => .pure found

/-- A run of calls is searched for with the types kept. -/
theorem search_keepsTypes (model : Model) (placeholder method : String) (container : Ref)
    (accepts : Acceptance) :
    Edit.KeepsTypes (search model placeholder method container accepts) tree
      fun search after => ∀ run ∈ search.found, after.IsOther run.outer ∧
        ∀ function ∈ run.functions, function.SparesTypes after :=
  .get_bind (searchAmong_keepsTypes model placeholder method accepts [] _)

end CallRun

end Refactory
