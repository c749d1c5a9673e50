import Refactory.Code.CallRun
import Refactory.Code.Composition
import Refactory.Proofs.Tree.Versions

/-!
# Code that is built takes versions

The edits that build, copy, combine and search code add every list before the node that has it, and
so lead to trees with new versions where they change something (`Edit.Advances`).
-/
namespace Refactory

namespace Build

open Refactory.Tree

/-- A node without lists is built. -/
theorem node_advances {kind : NodeKind} (children : List Ref)
    (slots : kind.slots = children.map .one) : (node kind).Advances := by
  refine fun tree => (alloc_leads (fun slot inside => ?_) _).mono fun _ _ _ _ => trivial
  rw [slots] at inside
  obtain ⟨child, -, rfl⟩ := List.mem_map.1 inside
  trivial

/-- A node with a list that is added just before is built. -/
theorem listed_advances {kind : Range → NodeKind} {refs : List Ref} (front back : List Ref)
    (slots : ∀ range,
      (kind range).slots = front.map Slot.one ++ Slot.many range :: back.map Slot.one) :
    Edit.Advances (do node (kind (← allocList refs))) := by
  intro tree
  refine (allocList_leads refs).bind fun range middle _ has => ?_
  refine (alloc_leads (fun slot inside => ?_) _).mono fun _ _ _ _ => trivial
  cases slot with
  | one _ => trivial
  | many other =>
    rw [slots] at inside
    obtain rfl : other = range := by simpa using inside
    exact has

theorem ident_advances (name : String) : (ident name).Advances := node_advances [] rfl

theorem int_advances (value : Int) : (int value).Advances := node_advances [] rfl

theorem paren_advances (inner : Ref) : (paren inner).Advances := node_advances [inner] rfl

theorem unary_advances (op : UnaryOp) (operand : Ref) : (unary op operand).Advances :=
  node_advances [operand] rfl

theorem binary_advances (op : BinaryOp) (left right : Ref) : (binary op left right).Advances :=
  node_advances [left, right] rfl

theorem member_advances (receiver : Ref) (name : String) (conditional : Bool) :
    (member receiver name conditional).Advances := node_advances [receiver] rfl

theorem argument_advances (value : Ref) : (argument value).Advances := node_advances [value] rfl

theorem param_advances (name : String) : (param name).Advances := node_advances [none] rfl

theorem index_advances (receiver position : Ref) : (index receiver position).Advances :=
  listed_advances [receiver] [] fun _ => rfl

theorem lambda_advances (param body : Ref)
    (parenthesized : Bool) : (lambda param body parenthesized).Advances :=
  @listed_advances (.lambda · body parenthesized) _ [] [body] fun _ => rfl

theorem block_advances (statements : List Ref) : (block statements).Advances :=
  listed_advances [] [] fun _ => rfl

theorem invoke_advances (callee : Ref) (values : List Ref) : (invoke callee values).Advances :=
  (Edit.Advances.mapM values argument_advances).bind fun _ =>
    listed_advances [callee] [] fun _ => rfl

theorem typeRef_advances (name : String) : (typeRef name).Advances := by
  refine fun tree => (alloc_leads (fun slot inside => ?_) _).mono fun _ _ _ _ => trivial
  obtain rfl := List.mem_singleton.1 inside
  intro entry inside
  cases inside

theorem localDecl_advances (type name : String)
    (value : Ref) : (localDecl type name value).Advances :=
  (typeRef_advances type).bind fun written => .bind (node_advances [value] rfl) fun _ =>
    listed_advances [written] [] fun _ => rfl

theorem copyOfParam_advances (param : Ref) : (copyOfParam param).Advances := by
  refine .get_bind fun tree => ?_
  split
  · exact node_advances [none] rfl
  · exact (duplicate_advances _).bind fun type => node_advances [type] rfl
  · exact .pure _

end Build

namespace Tree

theorem renameReferences_advances (model : Model) (referent : Referent) (name : String)
    (ref : Ref) :
    (renameReferences model referent name ref).Advances := by
  refine (fold_advances (fun _ current => .get_bind fun tree => ?_) ref).bind fun _ => .pure _
  split
  · exact (Build.ident_advances name).bind fun _ => .pure _
  · exact .pure _

theorem substituteReferences_advances (model : Model) (referent : Referent)
    (replacement ref : Ref) :
    (substituteReferences model referent replacement ref).Advances := by
  refine (fold_advances (fun replaced current => .get_bind fun tree => ?_) ref).bind
    fun _ => .pure _
  have put (value : Ref) : Edit.Advances (do
      let tree ← get
      if current =
        ref || tree.isArgumentValue current || tree.isPrimary value then return Verdict.become value
      else return .become (← Build.paren value) : Edit Verdict) := by
    refine .get_bind fun tree => ?_
    split
    · exact .pure _
    · exact (Build.paren_advances value).bind fun _ => .pure _
  split
  · split
    · exact put replacement
    · exact (duplicate_advances replacement).bind put
  · exact .pure _

theorem nameElements_advances (model : Model) (counter : SymbolId) (collection : Ref)
    (name : String) (ref : Ref) :
    (nameElements model counter collection name ref).Advances := by
  refine fold_advances (fun _ current => .get_bind fun tree => ?_) ref
  split
  · exact (Build.ident_advances name).bind fun _ => .pure _
  · exact .pure _

theorem indexElements_advances (model : Model) (element : SymbolId) (collection : Ref)
    (counter : String) (ref : Ref) :
    (indexElements model element collection counter ref).Advances := by
  refine (fold_advances (fun _ current => .get_bind fun tree => ?_) ref).bind fun _ => .pure _
  split
  · exact (duplicate_advances collection).bind fun receiver =>
      (Build.ident_advances counter).bind fun position =>
      (Build.index_advances receiver position).bind fun _ => .pure _
  · exact .pure _

end Tree

namespace Abstraction

theorem of?_advances (model : Model) (placeholder : String)
    (value : Ref) : (of? model placeholder value).Advances := by
  refine .get_bind fun tree => ?_
  split
  · exact .pure _
  · split
    · exact (Tree.duplicate_advances value).bind fun path => (Build.ident_advances placeholder).bind
        fun reference => (Build.invoke_advances path [reference]).bind fun _ => .pure _
    · exact .pure _

theorem operand_advances (predicate : Abstraction) (model : Model) (name : String) :
    (predicate.operand model name).Advances := by
  refine (Tree.renameReferences_advances model _ name _).bind fun body => .get_bind fun tree => ?_
  split
  · exact .pure _
  · exact Build.paren_advances body

theorem conjoinOnto_advances (model : Model) (name : String) (conjunction : Ref)
    (predicates : List Abstraction) :
    (conjoinOnto model name conjunction predicates).Advances := by
  induction predicates generalizing conjunction with
  | nil => exact .pure _
  | cons predicate predicates ih =>
    exact (predicate.operand_advances model name).bind fun operand =>
      (Build.binary_advances .and conjunction operand).bind ih

theorem conjoin_advances (model : Model) (name : String) (first : Abstraction)
    (others : List Abstraction) :
    (conjoin model name first others).Advances :=
  (first.operand_advances model name).bind fun operand =>
  conjoinOnto_advances model name operand others

theorem composeOnto_advances (model : Model) (composed : Ref) (functions : List Abstraction) :
    (composeOnto model composed functions).Advances := by
  induction functions generalizing composed with
  | nil => exact .pure _
  | cons function functions ih =>
    exact (Tree.substituteReferences_advances model _ composed _).bind ih

theorem compose_advances (model : Model) (name : String) (first : Abstraction)
    (others : List Abstraction) :
    (compose model name first others).Advances :=
  (Tree.renameReferences_advances model _ name _).bind fun body =>
  composeOnto_advances model body others

end Abstraction

namespace CallRun

theorem functionsOf?_advances (model : Model) (placeholder : String) (accepts : Acceptance)
    (place : Nat)
    (calls : List Ref) : (functionsOf? model placeholder accepts place calls).Advances := by
  induction calls generalizing place with
  | nil => exact .pure _
  | cons call calls ih =>
    rw [functionsOf?]
    refine .get_bind fun tree => ?_
    split
    · refine (Abstraction.of?_advances model placeholder _).bind fun function => ?_
      split
      · refine .get_bind fun tree => ?_
        split
        · exact (ih (place + 1)).bind fun _ => .pure _
        · exact .pure _
      · exact .pure _
    · exact .pure _

theorem searchAmong_advances (model : Model) (placeholder method : String) (accepts : Acceptance)
    (seen candidates : List Ref) :
    (searchAmong model placeholder method accepts seen candidates).Advances := by
  induction candidates generalizing seen with
  | nil => exact .pure _
  | cons candidate candidates ih =>
    rw [searchAmong]
    refine .get_bind fun tree => ?_
    split
    · exact ih seen
    · refine (functionsOf?_advances model placeholder accepts 0 _).bind fun functions => ?_
      split
      · exact .pure _
      · exact (ih _).bind fun _ => .pure _

/-- A search for a run builds the functions of the calls that it meets. -/
theorem search_advances (model : Model) (placeholder method : String) (container : Ref)
    (accepts : Acceptance) :
    (search model placeholder method container accepts).Advances :=
  .get_bind fun _ => searchAmong_advances model placeholder method accepts [] _

end CallRun

end Refactory
