import Refactory.Proofs.Tree.MirrorPlacing

/-!
# Matches in mirrored trees

What a refactoring matches in a tree, it matches in an image of the tree, with the nodes of the
match under their other numbers, and the same names are free there.
-/
namespace Refactory

open Refactory.Tree

variable {α : Type}

/-- A counted loop with its nodes under other numbers. -/
def CountedLoop.renumber (move : Nat → Nat) (loop : CountedLoop) : CountedLoop :=
  ⟨loop.ref.map move, loop.counter, loop.collection.map move, loop.body.map move⟩

/-- A loop over elements with its nodes under other numbers. -/
def ElementLoop.renumber (move : Nat → Nat) (loop : ElementLoop) : ElementLoop :=
  ⟨loop.ref.map move, loop.collection.map move, loop.body.map move⟩

/-- A call with a lambda with its nodes under other numbers. -/
def LambdaCall.renumber (move : Nat → Nat) (split : LambdaCall) : LambdaCall :=
  ⟨split.call.map move, split.called.renumber move, split.lambda.renumber move⟩

/-- A quantifier call with its node under another number. -/
def QuantifierCall.renumber (move : Nat → Nat) (call : QuantifierCall) : QuantifierCall :=
  ⟨call.call.map move, call.quantifier⟩

/-- A temporary that is used once, with its nodes under other numbers. -/
def Link.renumber (move : Nat → Nat) (link : Link) : Link :=
  ⟨link.declaration.map move, link.value.map move, link.use.map move⟩

/-- The declaration of a call with its nodes under other numbers. -/
def CallDeclaration.renumber (move : Nat → Nat) (temporary : CallDeclaration) : CallDeclaration :=
  ⟨temporary.declaration.map move, temporary.symbol, temporary.value.map move⟩

/-- Searches of a list find corresponding matches if they do at each element. -/
theorem findSome?_of {γ δ : Type} {items : List α} {g : γ → δ} {search : α → Option γ}
    {search' : α → Option δ}
    (each : ∀ item ∈ items, search' item = (search item).map g) :
    items.findSome? search' = (items.findSome? search).map g := by
  induction items with
  | nil => rfl
  | cons item items ih =>
    rw [List.findSome?_cons, List.findSome?_cons, each item (.head _)]
    cases search item with
    | none => exact ih fun other member => each other (.tail _ member)
    | some found => rfl

/-- So do searches of corresponding lists. -/
theorem findSome?_map_of {β γ δ : Type} {items : List α} {f : α → β} {g : γ → δ}
    {search : α → Option γ}
    {search' : β → Option δ} (each : ∀ item ∈ items, search' (f item) = (search item).map g) :
    (items.map f).findSome? search' = (items.findSome? search).map g := by
  rw [List.findSome?_map]
  exact findSome?_of each

theorem filterMap_map_of {β γ δ : Type} {items : List α} {f : α → β} {g : γ → δ}
    {search : α → Option γ}
    {search' : β → Option δ} (each : ∀ item ∈ items, search' (f item) = (search item).map g) :
    (items.map f).filterMap search' = (items.filterMap search).map g := by
  rw [List.filterMap_map, List.map_filterMap]
  exact List.filterMap_congr each

/-- Searches that go on alike from corresponding matches find corresponding ones. -/
theorem bind_of {β γ δ : Type} {found : Option α} {f : α → β} {g : γ → δ} {next : α → Option γ}
    {next' : β → Option δ}
    (each : ∀ value, found = some value → next' (f value) = (next value).map g) :
    (found.map f >>= next') = (found >>= next).map g := by
  cases found with
  | none => rfl
  | some value => exact each value rfl

theorem bind_same {γ δ : Type} {found : Option α} {g : γ → δ} {next : α → Option γ}
    {next' : α → Option δ}
    (each : ∀ value, found = some value → next' value = (next value).map g) :
    (found >>= next') = (found >>= next).map g := by
  cases found with
  | none => rfl
  | some value => exact each value rfl

theorem guard_bind_of {γ δ : Type} {g : γ → δ} (condition : Prop) [Decidable condition]
    {rest : Option γ} {rest' : Option δ} (same : rest' = rest.map g) :
    (do guard condition; rest') = (do guard condition; rest).map g := by
  subst same
  unfold guard
  split <;> rfl

namespace Tree

variable {move : Nat → Nat} {tree image : Tree}

/-- The collection whose size an expression reads is below the expression. -/
theorem Grounded.sizedCollection {bound collection : Ref} (grounded : tree.Grounded bound)
    (found : tree.sizedCollection? bound = some collection) : tree.Grounded collection := by
  rw [sizedCollection?] at found
  split at found
  · rename_i kind
    split at found
    · exact Option.some.inj found ▸ grounded.one (by rw [kind]; exact .head _)
    · cases found
  · rename_i callee arguments kind
    split at found
    · rename_i kindCallee
      split at found
      · have below : tree.Grounded callee := grounded.one (by rw [kind]; exact .head _)
        exact Option.some.inj found ▸ below.one (by rw [kindCallee]; exact .head _)
      · cases found
    · cases found
  · cases found

/-- A node below another one has less below it. -/
theorem Grounded.descendant {ref child : Ref} (grounded : tree.Grounded ref)
    (member : child ∈ tree.descendants ref) :
    tree.Grounded child := by
  have below (bound : Nat) {ref : Ref} (grounded : tree.Grounded ref)
      (member : child ∈ tree.preorder bound ref) :
      tree.Grounded child := by
    induction bound generalizing ref with
    | zero => cases member
    | succ bound ih =>
      rw [preorder, List.mem_cons, List.mem_flatMap] at member
      rcases member with rfl | ⟨other, isChild, inside⟩
      · exact grounded
      · exact ih (grounded.child isChild) inside
  cases ref with
  | none => cases member
  | some number => exact below _ grounded (tree.descendants_some number ▸ member)

/-- The value of a declaration of a call is below the declaration. -/
theorem Grounded.callDeclaration {model : Model} {statement : Ref} {temporary : CallDeclaration}
    (grounded : tree.Grounded statement)
    (found : tree.callDeclaration? model statement = some temporary) :
    tree.Grounded temporary.value := by
  rw [callDeclaration?] at found
  split at found
  · rename_i type declarators kind
    split at found
    · rename_i declarator items
      split at found
      · rename_i name value kindDeclarator
        have inside : declarator ∈ tree.items declarators := by rw [items]; exact .head _
        have below := (grounded.item (by rw [kind]; exact .tail _ (.head _)) inside).one
          (by rw [kindDeclarator]; exact .head _)
        simp only [Option.bind_eq_bind, Option.bind_eq_some_iff, Option.pure_def,
          Option.some.injEq] at found
        obtain ⟨_, _, _, _, rfl⟩ := found
        exact below
      · cases found
    · cases found
  · cases found

namespace Mirrors

variable (mirrors : tree.Mirrors move image)

include mirrors

/-! ### Loops -/

theorem sizedCollection? (bound : Ref) :
    image.sizedCollection? (bound.map move) =
    (tree.sizedCollection? bound).map (Option.map move) := by
  obtain ⟨g, same, lists⟩ := mirrors.exists_kind bound
  rw [Tree.sizedCollection?, same, Tree.sizedCollection?]
  cases kind : tree.kind bound with
  | member receiver name conditional =>
    cases conditional with
    | false =>
      simp only [Kind.bimap]
      split <;> rfl
    | true => rfl
  | invoke callee arguments =>
    have length := (lists 1 arguments (by rw [kind]; rfl)).length
    obtain ⟨g', same', -⟩ := mirrors.exists_kind callee
    simp only [Kind.bimap, same']
    cases tree.kind callee with
    | member receiver name conditional =>
      by_cases counts : name = "Count" ∧ conditional = false
      · obtain ⟨rfl, rfl⟩ := counts
        by_cases isEmpty : arguments.length = 0 <;> simp [Range.isEmpty, length, isEmpty]
      · split
        · rename_i isCount
          cases isCount
          exact absurd ⟨rfl, rfl⟩ counts
        · split
          · rename_i isCount
            cases isCount
            exact absurd ⟨rfl, rfl⟩ counts
          · rfl
    | _ => rfl
  | _ => rfl

theorem zeroDeclarator? (declaration : Ref) :
    image.zeroDeclarator? (declaration.map move) =
    (tree.zeroDeclarator? declaration).map (Option.map move) := by
  obtain ⟨g, same, lists⟩ := mirrors.exists_kind declaration
  rw [Tree.zeroDeclarator?, same, Tree.zeroDeclarator?]
  cases kind : tree.kind declaration with
  | localDecl type declarators =>
    have items := (lists 1 declarators (by rw [kind]; rfl)).items
    simp only [Kind.bimap, items]
    rcases tree.items declarators with _ | ⟨declarator, _ | ⟨second, others⟩⟩
    · rfl
    · obtain ⟨g, same, -⟩ := mirrors.exists_kind declarator
      simp only [List.map, same]
      cases tree.kind declarator with
      | declarator name value =>
        obtain ⟨g, same, -⟩ := mirrors.exists_kind value
        have zero : image.kind (value.map move) = .int 0 ↔ tree.kind value = .int 0 := by
          rw [same]
          cases tree.kind value <;> simp [Kind.bimap]
        simp only [Kind.bimap, zero]
        split <;> rfl
      | _ => rfl
    · rfl
  | _ => rfl

theorem incremented? {steps steps' : Range} (lists : MirrorsRange move tree image steps steps') :
    image.incremented? steps' = (tree.incremented? steps).map (Option.map move) := by
  rw [Tree.incremented?, lists.items, Tree.incremented?]
  match tree.items steps with
  | [] | _ :: _ :: _ => rfl
  | [step] =>
    obtain ⟨g, same, -⟩ := mirrors.exists_kind step
    simp only [List.map, same]
    cases tree.kind step with
    | unary op operand => cases op <;> rfl
    | _ => rfl

theorem elementLoop? (ref : Ref) :
    image.elementLoop? (ref.map move) =
    (tree.elementLoop? ref).map (ElementLoop.renumber move) := by
  obtain ⟨g, same, -⟩ := mirrors.exists_kind ref
  rw [Tree.elementLoop?, same, Tree.elementLoop?]
  cases tree.kind ref <;> rfl

theorem countedLoop? {model imageModel : Model} (models : model.Mirrors move imageModel) {ref : Ref}
    (grounded : tree.Grounded ref) : image.countedLoop? imageModel (ref.map move)
      = (tree.countedLoop? model ref).map (CountedLoop.renumber move) := by
  obtain ⟨g, same, lists⟩ := mirrors.exists_kind ref
  rw [Tree.countedLoop?, same, Tree.countedLoop?]
  cases kind : tree.kind ref with
  | forLoop declaration initializers condition steps body =>
    have length := (lists 1 initializers (by rw [kind]; rfl)).length
    have steps := mirrors.incremented? (lists 3 steps (by rw [kind]; rfl))
    simp only [Kind.bimap, Range.isEmpty, length, mirrors.zeroDeclarator?, steps]
    refine guard_bind_of _ (bind_of fun declarator _ => ?_)
    rw [models.declaredSymbol]
    refine bind_same fun counter _ => ?_
    rw [models.symbolType]
    refine guard_bind_of _ ?_
    obtain ⟨g', same', -⟩ := mirrors.exists_kind condition
    have below : tree.Grounded condition :=
      grounded.one (by rw [kind]; exact .tail _ (.tail _ (.head _)))
    rw [same']
    cases kindCondition : tree.kind condition with
    | binary op left right =>
      cases op with
      | lt =>
        have right := below.one (by rw [kindCondition]; exact .tail _ (.head _))
        simp only [Kind.bimap, models.symbolOf, mirrors.sizedCollection?]
        refine guard_bind_of _ (bind_of fun collection isCollection => ?_)
        rw [mirrors.isStablePath (right.sizedCollection isCollection)]
        refine guard_bind_of _ (bind_of fun operand _ => ?_)
        rw [models.symbolOf]
        exact guard_bind_of _ rfl
      | _ => rfl
    | _ => rfl
  | _ => rfl

/-! ### Quantifiers -/

theorem isNegatable (ref : Ref) : image.isNegatable (ref.map move) = tree.isNegatable ref := by
  obtain ⟨g, same, -⟩ := mirrors.exists_kind ref
  rw [Tree.isNegatable, same, Tree.isNegatable]
  cases tree.kind ref <;> rfl

theorem quantifierCall? (call : Ref) :
    image.quantifierCall? (call.map move) =
    (tree.quantifierCall? call).map (QuantifierCall.renumber move) := by
  rw [Tree.quantifierCall?, Tree.quantifierCall?, mirrors.calledMember?, mirrors.singleArgument?]
  refine bind_of fun called _ => bind_same fun quantifier _ => bind_of fun value _ => ?_
  rw [mirrors.simpleLambda?]
  refine bind_of fun lambda _ => ?_
  simp only [SimpleLambda.renumber, mirrors.isNegatable]
  exact guard_bind_of _ rfl

theorem isNegation (ref : Ref) : image.isNegation (ref.map move) = tree.isNegation ref := by
  obtain ⟨g, same, -⟩ := mirrors.exists_kind ref
  rw [Tree.isNegation, same, Tree.isNegation]
  cases tree.kind ref with
  | unary op operand => cases op <;> rfl
  | _ => rfl

theorem aroundParens (ref : Ref) (above : List Ref) :
    image.aroundParens (ref.map move) (above.map (Option.map move)) =
    (tree.aroundParens ref above).map move := by
  induction above generalizing ref with
  | nil => rfl
  | cons parent above ih =>
    obtain ⟨g, same, -⟩ := mirrors.exists_kind parent
    rw [List.map_cons, Tree.aroundParens, same, Tree.aroundParens]
    cases tree.kind parent with
    | paren inner => exact ih parent
    | _ => rfl

theorem needsParensNegated
    (ref : Ref) : image.needsParensNegated (ref.map move) = tree.needsParensNegated ref := by
  rw [Tree.needsParensNegated, mirrors.parent, Tree.needsParensNegated]
  cases tree.parent ref with
  | none => rfl
  | some parent =>
    obtain ⟨g, same, -⟩ := mirrors.exists_kind (some parent)
    simp only [Option.map_some] at same ⊢
    rw [same]
    cases tree.kind (some parent) <;> first | rfl | exact mirrors.map_beq _ ref

/-! ### Calls with lambdas -/

theorem lambdaCall? (call : Ref) :
    image.lambdaCall? (call.map move) = (tree.lambdaCall? call).map (LambdaCall.renumber move) := by
  rw [Tree.lambdaCall?, Tree.lambdaCall?, mirrors.singleArgument?, mirrors.calledMember?]
  refine bind_of fun value _ => ?_
  rw [mirrors.simpleLambda?]
  exact bind_of fun lambda _ => bind_of fun called _ => rfl

theorem splitOperands? {filter : LambdaCall} (grounded : tree.Grounded filter.lambda.body) :
    image.splitOperands? (filter.renumber move) =
    (tree.splitOperands? filter).map (List.map (Option.map move)) := by
  have conjuncts : image.conjuncts (filter.lambda.body.map move)
      = (tree.conjuncts filter.lambda.body).map (Option.map move) := by
    rw [Tree.conjuncts, Tree.conjuncts, mirrors.stripParens grounded]
    exact mirrors.conjunctsWithin grounded.stripParens
      (mirrors.ends_of_grounded grounded.stripParens)
  simp only [Tree.splitOperands?, LambdaCall.renumber, SimpleLambda.renumber, conjuncts,
    Option.filter_some, List.length_map]
  split <;> rfl

theorem splitLayers? {model imageModel : Model} (models : model.Mirrors move imageModel)
    {projection : LambdaCall} (grounded : tree.Grounded projection.lambda.body) :
    image.splitLayers? imageModel (projection.renumber move)
      = (tree.splitLayers? model projection).map (List.map (Layer.renumber move)) := by
  rw [Tree.splitLayers?, Tree.splitLayers?]
  simp only [LambdaCall.renumber, SimpleLambda.renumber, models.declaredSymbol]
  refine bind_same fun symbol _ => ?_
  change image.layers? imageModel ((Referent.symbol symbol).renumber move) _ = _
  exact mirrors.layers? models grounded

theorem passedTo? {layer : Layer} (grounded : tree.Grounded layer.call) :
    image.passedTo? (layer.renumber move) = (tree.passedTo? layer).map (Option.map move) := by
  obtain ⟨g, same, lists⟩ := mirrors.exists_kind layer.call
  rw [Tree.passedTo?, Layer.renumber, same, Tree.passedTo?]
  cases kind : tree.kind layer.call with
  | invoke callee arguments =>
    have items := (lists 1 arguments (by rw [kind]; rfl)).items
    have below : tree.Grounded callee := grounded.one (by rw [kind]; exact .head _)
    have single : image.items (g 1 arguments) = [layer.hole.map move] ↔
        tree.items arguments = [layer.hole] := by
      rw [items]
      exact @map_list_inj _ _ _ mirrors (tree.items arguments) [layer.hole]
    simp only [Kind.bimap, single, mirrors.isStablePath below]
    split <;> rfl
  | _ => rfl

/-! ### Temporaries -/

theorem callDeclaration? {model imageModel : Model} (models : model.Mirrors move imageModel)
    (statement : Ref) :
    image.callDeclaration? imageModel (statement.map move)
      = (tree.callDeclaration? model statement).map (CallDeclaration.renumber move) := by
  obtain ⟨g, same, lists⟩ := mirrors.exists_kind statement
  rw [Tree.callDeclaration?, same, Tree.callDeclaration?]
  cases kind : tree.kind statement with
  | localDecl type declarators =>
    have items := (lists 1 declarators (by rw [kind]; rfl)).items
    simp only [Kind.bimap, items]
    rcases tree.items declarators with _ | ⟨declarator, _ | ⟨second, others⟩⟩
    · rfl
    · obtain ⟨g, same, -⟩ := mirrors.exists_kind declarator
      simp only [List.map, same]
      cases tree.kind declarator with
      | declarator name value =>
        simp only [Kind.bimap, mirrors.calledMember?, Option.isSome_map, models.declaredSymbol]
        exact guard_bind_of _ (bind_same fun symbol _ => rfl)
      | _ => rfl
    · rfl
  | _ => rfl

theorem isCalledReceiver
    (ref : Ref) : image.isCalledReceiver (ref.map move) = tree.isCalledReceiver ref := by
  rw [Tree.isCalledReceiver, mirrors.parent, Tree.isCalledReceiver]
  cases tree.parent ref with
  | none => rfl
  | some access =>
    obtain ⟨g, same, -⟩ := mirrors.exists_kind (some access)
    have above := mirrors.parent (some access)
    simp only [Option.map_some] at same above ⊢
    rw [same, above]
    cases tree.kind (some access) with
    | member receiver name conditional =>
      simp only [Kind.bimap, mirrors.map_beq]
      cases tree.parent (some access) with
      | none => rfl
      | some call =>
        obtain ⟨g, same, -⟩ := mirrors.exists_kind (some call)
        simp only [Option.map_some] at same ⊢
        rw [same]
        cases tree.kind (some call) with
        | invoke callee arguments => exact congrArg (_ && ·) (mirrors.map_beq callee (some access))
        | _ => rfl
    | _ => rfl

theorem canFollowTemporaries (statement : Ref) :
    image.canFollowTemporaries (statement.map move) = tree.canFollowTemporaries statement := by
  obtain ⟨g, same, -⟩ := mirrors.exists_kind statement
  rw [Tree.canFollowTemporaries, same, mirrors.parent, Tree.canFollowTemporaries]
  congr 1
  · cases tree.kind statement <;> rfl
  · congr 1
    cases tree.parent statement with
    | none => rfl
    | some parent =>
      obtain ⟨g, same, -⟩ := mirrors.exists_kind (some parent)
      simp only [Option.map_some] at same ⊢
      rw [same]
      cases tree.kind (some parent) <;> rfl

theorem callChain? {ref : Ref} (grounded : tree.Grounded ref) :
    image.callChain? (ref.map move) = (tree.callChain? ref).map (List.map (Option.map move)) := by
  rw [Tree.callChain?, Tree.callChain?, mirrors.descendants grounded]
  refine findSome?_map_of fun call member => ?_
  rw [mirrors.callSpine (grounded.descendant member), ← List.map_reverse, Option.filter_some,
    Option.filter_some, List.length_map]
  split <;> rfl

section

variable {model imageModel : Model} (models : model.Mirrors move imageModel) {whole : Outline}
  (program : tree.IsProgram whole)

include models program

theorem readsDeclarationOf {statement ref : Ref} (covers : whole.Covers ref) :
    image.readsDeclarationOf imageModel (statement.map move) (ref.map move)
      = tree.readsDeclarationOf model statement ref := by
  obtain ⟨g, same, lists⟩ := mirrors.exists_kind statement
  rw [Tree.readsDeclarationOf, same, Tree.readsDeclarationOf]
  cases kind : tree.kind statement with
  | localDecl type declarators =>
    have items := (lists 1 declarators (by rw [kind]; rfl)).items
    have declared : imageModel.declaredSymbol ∘ Option.map move = model.declaredSymbol :=
      funext models.declaredSymbol
    have named : imageModel.symbolOf ∘ Option.map move = model.symbolOf := funext models.symbolOf
    simp only [Kind.bimap, items, List.filterMap_map, declared,
      mirrors.descendants (program.grounded covers), List.any_map]
    congr 1
    funext ref
    exact congrArg (Option.any _) (models.symbolOf ref)
  | _ => rfl

theorem soleReceiverUse? (symbol : SymbolId) {statements : List Ref}
    (covers : ∀ statement ∈ statements, whole.Covers statement) :
    image.soleReceiverUse? imageModel symbol (statements.map (Option.map move))
      = (tree.soleReceiverUse? model symbol statements).map (Option.map move) := by
  cases statements with
  | nil => rfl
  | cons consumer later =>
    have below : ((consumer :: later).map (Option.map move)).flatMap image.descendants
        = ((consumer :: later).flatMap tree.descendants).map (Option.map move) := by
      rw [List.flatMap_map, List.map_flatMap]
      exact List.flatMap_congr fun statement member =>
        mirrors.descendants (program.grounded (covers statement member))
    have uses : (((consumer :: later).map (Option.map move)).flatMap image.descendants).filter
          (imageModel.symbolOf · == some symbol)
        = (((consumer :: later).flatMap tree.descendants).filter
          (model.symbolOf · == some symbol)).map (Option.map move) := by
      rw [below, List.filter_map]
      congr 2
      funext ref
      rw [Function.comp_apply, models.symbolOf]
    rw [List.map_cons] at uses ⊢
    rw [Tree.soleReceiverUse?, Tree.soleReceiverUse?]
    simp only [uses]
    match found : ((consumer :: later).flatMap tree.descendants).filter
      (model.symbolOf · == some symbol) with
    | [] | _ :: _ :: _ => rfl
    | [use] =>
      have isUse : use ∈ (consumer :: later).flatMap tree.descendants :=
        List.mem_of_mem_filter (found ▸ List.mem_singleton_self use)
      obtain ⟨statement, member, inside⟩ := List.mem_flatMap.1 isUse
      have coversUse := program.covers_descendant (covers statement member) inside
      simp only [List.map_cons, List.map_nil, mirrors.isWithin (program.tops coversUse),
        mirrors.isEvaluatedFirst program coversUse, mirrors.isCalledReceiver]
      split <;> rfl

theorem linksFrom (temporary : CallDeclaration) {statements : List Ref}
    (covers : ∀ statement ∈ statements, whole.Covers statement) :
    image.linksFrom imageModel (temporary.renumber move) (statements.map (Option.map move))
      = (tree.linksFrom model temporary statements).map (Link.renumber move) := by
  induction statements generalizing temporary with
  | nil => rfl
  | cons consumer later ih =>
    have use := mirrors.soleReceiverUse? models program temporary.symbol covers
    rw [List.map_cons] at use ⊢
    rw [Tree.linksFrom, Tree.linksFrom, show (temporary.renumber move).symbol
      = temporary.symbol from rfl, use, mirrors.callDeclaration? models]
    cases tree.soleReceiverUse? model temporary.symbol (consumer :: later) with
    | none => rfl
    | some use =>
      cases found : tree.callDeclaration? model consumer with
      | none => rfl
      | some next =>
        have grounded : tree.Grounded next.value :=
          (program.grounded (covers consumer (.head _))).callDeclaration found
        simp only [Option.map_some, List.map_cons, CallDeclaration.renumber,
          mirrors.spineRoot grounded, mirrors.map_inj]
        have others := ih next fun statement member => covers statement (.tail _ member)
        refine congrArg (List.cons _) ?_
        split
        · exact others
        · rfl

theorem leadingLinks {statements : List Ref}
    (covers : ∀ statement ∈ statements, whole.Covers statement) :
    image.leadingLinks imageModel (statements.map (Option.map move))
      = (tree.leadingLinks model statements).map (Link.renumber move) := by
  cases statements with
  | nil => rfl
  | cons statement later =>
    rw [List.map_cons, Tree.leadingLinks, mirrors.callDeclaration? models, Tree.leadingLinks]
    cases tree.callDeclaration? model statement with
    | none => rfl
    | some temporary =>
      exact mirrors.linksFrom models program temporary fun other member =>
        covers other (.tail _ member)

theorem linksAt {statements : List Ref} (place : Nat)
    (covers : ∀ statement ∈ statements, whole.Covers statement) :
    image.linksAt imageModel (statements.map (Option.map move)) place
      = (tree.linksAt model statements place).map (Link.renumber move) := by
  have leading
      (start : Nat) : image.leadingLinks imageModel ((statements.drop start).map (Option.map move))
      = (tree.leadingLinks model (statements.drop start)).map (Link.renumber move) :=
    mirrors.leadingLinks models program fun statement member =>
    covers statement (List.mem_of_mem_drop member)
  rw [Tree.linksAt, Tree.linksAt]
  simp only [← List.map_drop, leading, List.isEmpty_map, List.length_map]
  have getD (links : Option (List Link)) :
      (links.map (List.map (Link.renumber move))).getD [] =
      (links.getD []).map (Link.renumber move) := by
    cases links <;> rfl
  rw [← getD]
  refine congrArg (Option.getD · []) (findSome?_of fun start _ => ?_)
  split <;> rfl

end

end Mirrors

end Tree

end Refactory
