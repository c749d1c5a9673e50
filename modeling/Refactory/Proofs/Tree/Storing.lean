import Refactory.Proofs.Grammar.Builder
import Refactory.Proofs.Code.Evaluation
import Refactory.Proofs.Term.Shape
import Refactory.Proofs.Tree.WellFormed

/-!
# Storing a term

Storing a term in a tree builds a copy of it whose notes say where the nodes went
(`Tree.exists_store`), so the tree of a source text is a program of the shape that was read
(`Tree.exists_isProgram_of_parse`). Nodes are added in post-order and nothing else is: their numbers
are the next ones of the tree (`Tree.Adds`).
-/
namespace Refactory

variable {tree : Tree}

/-- The places of the parts of a term in post-order: what is below a part comes before the part. -/
def Term.postorder (outline : Outline) : List Ref := (evaluation outline).map (·.1.ref)

theorem Term.postorder_node (place : Place) (form : Form Place) :
    Term.postorder (.node place form) = (parts form).flatMap Term.postorder ++ [place.ref] := by
  rw [Term.postorder, evaluation_node, List.map_append, List.map_flatMap]
  rfl

namespace Tree

open Term

/-- Adding a node makes the store one node larger. -/
theorem size_alloc (kind : NodeKind) (span : Span) (tree : Tree) :
    (alloc kind span tree).2.size = tree.size + 1 := by
  simp [alloc, Tree.size]

/-- Nothing is above a node that was just added. -/
theorem parent_alloc {kind : NodeKind} {form : Form Place} (stored : tree.Stored)
    (depicts : tree.Depicts kind form)
    (children : tree.StandsAll (parts form)) (span : Span) :
    (alloc kind span tree).2.parent (some tree.size) = none := by
  have hasRef : ∀ child ∈ parts form, tree.HasRef child.ref := fun child member =>
    children.hasRef (List.mem_flatMap.2 ⟨child, member, ref_mem_refs child⟩)
  let grown : Tree :=
    { tree with nodes := tree.nodes.push ⟨kind, span⟩, parents := tree.parents.push none }
  have grows : Frame [] [] tree grown := push_frame (depicts.hasSlot hasRef) span
  have inside : tree.size < grown.size := by simp [grown, size]
  have adopts : Frame [] ((parts form).map Term.ref) grown (grown.adopt (some tree.size) kind) := by
    rw [adopt, (depicts.of_frame grows).kindChildren]
    exact setParents_frame (fun _ => ⟨tree.size, inside, rfl⟩) _
  have notChild : some tree.size ∉ (parts form).map Term.ref := by
    intro member
    obtain ⟨child, held, same⟩ := List.mem_map.1 member
    exact not_hasRef_size (same ▸ hasRef child held)
  calc (alloc kind span tree).2.parent (some tree.size)
    _ = grown.parent (some tree.size) := adopts.parents tree.size inside notChild
    _ = none := by simp [grown, Tree.parent, ← stored.aligned]

/-- Terms that were built of nothing, whose nodes are all that was added, in post-order. -/
structure Adds (before after : Tree)
    (outlines : List Outline) : Prop extends Builds [] before after outlines where
  /-- The new numbers are those of the nodes of the terms, each after those below it. -/
  numbered : outlines.flatMap Term.postorder
    = (List.range' before.size (after.size - before.size)).map some
  /-- Nothing is above the terms. -/
  unplaced : ∀ outline ∈ outlines, after.parent outline.ref = none
  /-- The clock does not go back. -/
  clock : before.clock ≤ after.clock

namespace Adds

variable {before middle after : Tree} {outlines outlines' : List Outline}

theorem nil (tree : Tree) : Adds tree tree [] := ⟨.refl .nil, by simp, by simp, Nat.le_refl _⟩

/-- What is added stays where it is when more is added. -/
theorem parent_eq {outline : Outline} (adds : Adds before middle outlines)
    (frame : Frame [] [] middle after)
    (member : outline ∈ outlines) : after.parent outline.ref = none := by
  obtain ⟨number, inside, place⟩ :=
    adds.stands.hasRef (List.mem_flatMap.2 ⟨outline, member, ref_mem_refs outline⟩)
  rw [place, frame.parents number inside List.not_mem_nil, ← place]
  exact adds.unplaced outline member

/-- What is added later comes behind and has later numbers. -/
theorem beside (first : Adds before middle outlines) (second : Adds middle after outlines') :
    Adds before after (outlines ++ outlines') where
  toBuilds := first.toBuilds.beside second.toBuilds
  numbered := by
    have growsFirst := first.frame.size
    have growsSecond := second.frame.size
    have apart : middle.size = before.size + (middle.size - before.size) := by omega
    have together : after.size - before.size
        = (middle.size - before.size) + (after.size - middle.size) := by omega
    rw [List.flatMap_append, first.numbered, second.numbered, ← List.map_append, together,
      ← List.range'_append_1, ← apart]
  unplaced := List.forall_mem_append.2 ⟨fun _ => first.parent_eq second.frame, second.unplaced⟩
  clock := Nat.le_trans first.clock second.clock

/-- Lists may be added later. -/
theorem grow (adds : Adds before middle outlines) (frame : Frame [] [] middle after)
    (same : after.size = middle.size) (clock : after.clock = middle.clock) :
    Adds before after outlines where
  toBuilds := adds.toBuilds.grow frame
  numbered := by rw [same, adds.numbered]
  unplaced _ := adds.parent_eq frame
  clock := clock ▸ adds.clock

/-- The node above the terms that were added has the next number. -/
theorem alloc {kind : NodeKind} {form : Form Place} (adds : Adds before middle (parts form))
    (stored : middle.Stored)
    (depicts : middle.Depicts kind form) (span : Span) :
    Adds before (Tree.alloc kind span middle).2 [.node ⟨some middle.size, span⟩ form] where
  toBuilds := adds.toBuilds.trans (alloc_builds stored depicts adds.stands span)
  numbered := by
    have grows := adds.frame.size
    have more : middle.size + 1 - before.size = (middle.size - before.size) + 1 := by omega
    have last : before.size + (middle.size - before.size) = middle.size := by omega
    rw [List.flatMap_singleton, postorder_node, adds.numbered, size_alloc, more, List.range'_concat,
      Nat.one_mul, last, List.map_append, List.map_singleton]
  unplaced outline member :=
    List.mem_singleton.1 member ▸ parent_alloc stored depicts adds.stands span
  clock := by
    refine Nat.le_trans adds.clock ?_
    simp [Tree.alloc, touch]

end Adds

/-- An outline records a term when it is the term with the places of the nodes in its notes. -/
def Records (outline : Outline) (term : SourceTerm) : Prop := outline.map Place.span = term

/-- What was stored between two states of a tree: child positions that hold the given terms. -/
structure Fills (before after : Tree) (slots : List NodeSlot)
    (sources : List (Slot (Option SourceTerm) (List SourceTerm))) : Prop where
  /-- All lies in the stores. -/
  stored : after.Stored
  /-- The child positions hold copies of the terms, and nothing else was touched. -/
  filled : ∃ contents, List.Forall₂ after.Holds slots contents ∧
    List.Forall₂ (Slot.Related Records) contents sources ∧
    Adds before after (contents.flatMap Slot.terms)

/-- What storing an optional term does. -/
def StoresSome (source : Option SourceTerm) : Prop :=
  ∀ tree : Tree, tree.Stored → Fills tree (storeSome source tree).2 [.one (storeSome source tree).1]
    [.one source]

/-- What storing terms does. -/
def StoresAll (sources : List SourceTerm) : Prop :=
  ∀ tree : Tree, tree.Stored → ∃ outlines, Adds tree (storeAll sources tree).2 outlines ∧
    (storeAll sources tree).1 = outlines.map Term.ref ∧ List.Forall₂ Records outlines sources

namespace Fills

variable {before middle after : Tree} {slots slots' : List NodeSlot}
  {sources sources' : List (Slot (Option SourceTerm) (List SourceTerm))}

/-- Nothing that was there before is touched. -/
theorem frame (fills : Fills before after slots sources) : Frame [] [] before after := by
  obtain ⟨contents, holds, records, adds⟩ := fills.filled
  exact adds.frame

theorem nil (stored : before.Stored) : Fills before before [] [] :=
  ⟨stored, [], .nil, .nil, .nil before⟩

/-- What is stored later comes behind. -/
theorem append (first : Fills before middle slots sources)
    (second : Fills middle after slots' sources') :
    Fills before after (slots ++ slots') (sources ++ sources') := by
  obtain ⟨contents, holds, records, adds⟩ := first.filled
  obtain ⟨contents', holds', records', adds'⟩ := second.filled
  have holds := holds.imp fun _ _ => Holds.of_frame adds'.frame
  refine ⟨second.stored, contents ++ contents', ?_, ?_, ?_⟩
  · exact List.rel_append holds holds'
  · exact List.rel_append records records'
  · rw [List.flatMap_append]
    exact adds.beside adds'

/-- A term that was added fills a position for one child. -/
theorem one {outline : Outline} {child : SourceTerm} (stored : before.Stored)
    (adds : Adds before after [outline]) (records : Records outline child) :
    Fills before after [.one outline.ref] [.one (some child)] := by
  refine ⟨adds.frame.stored stored, [.one (some outline)], .cons ⟨rfl, ?_⟩ .nil,
    .cons (.present records) .nil, adds⟩
  rintro _ ⟨rfl⟩
  exact (adds.stands.hasRef (List.mem_flatMap.2 ⟨outline, .head _, ref_mem_refs outline⟩)).ne_none

/-- Terms that were added fill a list position once their list is added. -/
theorem list {outlines : List Outline} {children : List SourceTerm} (stored : before.Stored)
    (adds : Adds before middle outlines) (records : List.Forall₂ Records outlines children) :
    Fills before (allocList (outlines.map Term.ref) middle).2
      [.many (allocList (outlines.map Term.ref) middle).1] [.many children] := by
  have hasRef : ∀ ref ∈ outlines.map Term.ref, middle.HasRef ref :=
    fun ref member => adds.stands.hasRef (mem_flatMap_refs_of_root member)
  have grows := allocList_frame hasRef
  refine ⟨grows.stored (adds.frame.stored stored), [.many outlines], ?_, ?_, ?_⟩
  · exact .cons (allocList_holds outlines) .nil
  · exact .cons (.many records) .nil
  · simpa using adds.grow grows rfl rfl

/-- A list of stored terms fills a list position once it is added. -/
theorem many {children : List SourceTerm} (stores : StoresAll children) (stored : before.Stored) :
    Fills before (allocList (storeAll children before).1 (storeAll children before).2).2
      [.many (allocList (storeAll children before).1 (storeAll children before).2).1]
      [.many children] := by
  obtain ⟨outlines, adds, refs, records⟩ := stores before stored
  rw [refs]
  exact .list stored adds records

/-- What fills the positions still does when lists are added. -/
theorem grow (fills : Fills before middle slots sources) (frame : Frame [] [] middle after)
    (same : after.size = middle.size) (clock : after.clock = middle.clock) :
    Fills before after slots sources := by
  obtain ⟨contents, holds, records, adds⟩ := fills.filled
  have holds := holds.imp fun _ _ => Holds.of_frame frame
  exact ⟨frame.stored fills.stored, contents, holds, records, adds.grow frame same clock⟩

/-- A list of terms that were stored first may be added last. -/
theorem late {children : List SourceTerm} {outlines : List Outline} {range : Range}
    (adds : Adds before middle outlines) (records : List.Forall₂ Records outlines children)
    (fills : Fills middle after slots sources)
    (holds : after.Holds (.many range) (.many outlines)) :
    Fills before after (.many range :: slots) (.many children :: sources) := by
  obtain ⟨contents, holdsOthers, recordsOthers, addsOthers⟩ := fills.filled
  refine ⟨fills.stored, .many outlines :: contents, ?_, ?_, ?_⟩
  · exact .cons holds holdsOthers
  · exact .cons (.many records) recordsOthers
  · exact adds.beside addsOthers

end Fills

/-- What storing a form comes to: a kind that is like the form, with its positions filled. -/
def StoresForm (form : Form Span) : Prop :=
  ∀ tree : Tree, tree.Stored →
    Fills tree (storeForm form tree).2 (storeForm form tree).1.slots form.slots ∧
    (storeForm form tree).1.skeleton = form.skeleton

/-- Storing a form fills the positions of a kind like it. -/
theorem storesForm (form : Form Span) (some : ∀ child, .one child ∈ form.slots → StoresSome child)
    (all : ∀ children, .many children ∈ form.slots → StoresAll children) : StoresForm form := by
  intro tree stored
  cases form with
  | int value => exact ⟨.nil stored, rfl⟩
  | str value => exact ⟨.nil stored, rfl⟩
  | bool value => exact ⟨.nil stored, rfl⟩
  | null => exact ⟨.nil stored, rfl⟩
  | ident value => exact ⟨.nil stored, rfl⟩
  | unit members => exact ⟨.many (all members (by simp)) stored, rfl⟩
  | block members => exact ⟨.many (all members (by simp)) stored, rfl⟩
  | typeRef name members rank => exact ⟨.many (all members (by simp)) stored, rfl⟩
  | param type name => exact ⟨some type (by simp) tree stored, rfl⟩
  | declarator name value => exact ⟨some value (by simp) tree stored, rfl⟩
  | exprStmt value => exact ⟨some value (by simp) tree stored, rfl⟩
  | returnStmt value => exact ⟨some value (by simp) tree stored, rfl⟩
  | member value name conditional => exact ⟨some value (by simp) tree stored, rfl⟩
  | argument modifier value => exact ⟨some value (by simp) tree stored, rfl⟩
  | unary op value => exact ⟨some value (by simp) tree stored, rfl⟩
  | paren value => exact ⟨some value (by simp) tree stored, rfl⟩
  | whileLoop first second | binary op first second | assign op first second =>
    have filled := some first (by simp) tree stored
    exact ⟨filled.append (some second (by simp) _ filled.stored), rfl⟩
  | localDecl first others | invoke first others | index first others =>
    have filled := some first (by simp) tree stored
    exact ⟨filled.append (.many (all others (by simp)) filled.stored), rfl⟩
  | method result name params body =>
    have filled := some result (by simp) tree stored
    have filled := filled.append (.many (all params (by simp)) filled.stored)
    exact ⟨filled.append (some body (by simp) _ filled.stored), rfl⟩
  | ifStmt condition thenBranch elseBranch =>
    have filled := some condition (by simp) tree stored
    have filled := filled.append (some thenBranch (by simp) _ filled.stored)
    exact ⟨filled.append (some elseBranch (by simp) _ filled.stored), rfl⟩
  | forEach type name collection body =>
    have filled := some type (by simp) tree stored
    have filled := filled.append (some collection (by simp) _ filled.stored)
    exact ⟨filled.append (some body (by simp) _ filled.stored), rfl⟩
  | lambda params body parenthesized =>
    obtain ⟨outlines, adds, refs, records⟩ := all params (by simp) tree stored
    have filled := some body (by simp) _ (adds.frame.stored stored)
    have standing := (adds.toBuilds.grow filled.frame).stands
    have grows :=
      allocList_frame fun ref member => standing.hasRef (mem_flatMap_refs_of_root member)
    have holds := @allocList_holds (storeSome body (storeAll params tree).2).2 outlines
    rw [← refs] at grows holds
    exact ⟨.late adds records (filled.grow grows rfl rfl) holds, rfl⟩
  | forLoop declaration initializers condition incrementors body =>
    have filled := some declaration (by simp) tree stored
    obtain ⟨outlines, adds, refs, records⟩ := all initializers (by simp) _ filled.stored
    have filledCondition := some condition (by simp) _ (adds.frame.stored filled.stored)
    obtain ⟨outlines', adds', refs', records'⟩ :=
      all incrementors (by simp) _ filledCondition.stored
    have filledBody := some body (by simp) _ (adds'.frame.stored filledCondition.stored)
    have standing :=
      (((adds.toBuilds.grow filledCondition.frame).grow adds'.frame).grow filledBody.frame).stands
    have grows :=
      allocList_frame fun ref member => standing.hasRef (mem_flatMap_refs_of_root member)
    have standing' := ((adds'.toBuilds.grow filledBody.frame).grow grows).stands
    have grows' :=
      allocList_frame fun ref member => standing'.hasRef (mem_flatMap_refs_of_root member)
    have lateIncrementors :=
      Fills.late adds' records' ((filledBody.grow grows rfl rfl).grow grows' rfl rfl)
        (allocList_holds outlines')
    have fills := Fills.late adds records (filledCondition.append lateIncrementors)
      ((allocList_holds outlines).of_frame grows')
    have fills := filled.append fills
    rw [← refs, ← refs'] at fills
    exact ⟨fills, rfl⟩

theorem Holds.alike {slot : NodeSlot} {content : Slot (Option Outline) (List Outline)}
    (holds : tree.Holds slot content) : Slot.Alike slot content := by
  cases slot <;> cases content
  · exact .one
  · exact holds.elim
  · exact holds.elim
  · exact .many

/-- A form that records another is that form when only the spans are kept. -/
theorem mapForm_of_records {form : Form Place} {source : Form Span}
    (records : List.Forall₂ (Slot.Related Records) form.slots source.slots)
    (skeleton : form.skeleton = source.skeleton) : Term.mapForm Place.span form = source := by
  have slots : (Term.mapForm Place.span form).slots = source.slots := by
    rw [mapForm_eq, slots_mapChildren]
    generalize form.slots = contents, source.slots = sources at records
    induction records with
    | nil => rfl
    | cons first _ ih =>
      rw [List.map_cons, ih]
      congr 1
      cases first with
      | absent => rfl
      | present same => exact congrArg (Slot.one ∘ some) same
      | many same =>
        refine congrArg Slot.many ?_
        rw [← List.forall₂_eq_eq_eq, List.forall₂_map_left_iff]
        exact same
  have alike : source.skeleton = (Term.mapForm Place.span form).skeleton := by
    rw [mapForm_eq, Term.mapChildren, Kind.skeleton_withSlots, skeleton]
  rw [Kind.eq_withSlots_of_skeleton none [] alike, slots, Kind.withSlots_slots]

/-- A node whose positions are filled records the node that they were filled from. -/
theorem Fills.alloc {before middle : Tree} {kind : NodeKind} {form : Form Span}
    (fills : Fills before middle kind.slots form.slots) (skeleton : kind.skeleton = form.skeleton)
    (span : Span) : ∃ outline, Adds before (alloc kind span middle).2 [outline] ∧
      (alloc kind span middle).1 = outline.ref ∧ Records outline (.node span form) := by
  obtain ⟨stored, contents, holds, records, adds⟩ := fills
  have slots := @Kind.slots_withSlots _ _ _ _ kind none [] _ (holds.imp fun _ _ => Holds.alike)
  have depicts : middle.Depicts kind (kind.withSlots none [] contents) :=
    ⟨by rwa [slots], (Kind.skeleton_withSlots _ _ _ _).symm⟩
  have same : parts (kind.withSlots none [] contents) = contents.flatMap Slot.terms := by
    rw [parts, slots]
  rw [← same] at adds
  refine ⟨_, adds.alloc stored depicts span, rfl, ?_⟩
  have recorded := mapForm_of_records (slots.symm ▸ records)
    ((Kind.skeleton_withSlots _ _ _ _).trans skeleton)
  rw [Records, Term.map, recorded]

/-- Storing a term builds a copy of it. -/
theorem exists_store (term : SourceTerm) (stored : tree.Stored) :
    ∃ outline, Adds tree (store term tree).2 [outline] ∧
      (store term tree).1 = outline.ref ∧ Records outline term := by
  induction term using Term.induction generalizing tree with
  | step span form ih =>
    have some : ∀ child, .one child ∈ form.slots → StoresSome child := by
      intro child member tree stored
      cases child with
      | none =>
        exact ⟨stored, [.one none], .cons ⟨rfl, by simp⟩ .nil, .cons .absent .nil, .nil tree⟩
      | some child =>
        obtain ⟨outline, adds, same, records⟩ :=
          ih child (mem_parts.2 ⟨_, member, by simp⟩) stored
        have fills := Fills.one stored adds records
        rwa [← same] at fills
    have all : ∀ children, .many children ∈ form.slots → StoresAll children := by
      intro children member
      have each : ∀ child ∈ children, child ∈ parts form := fun child inside =>
        mem_parts.2 ⟨_, member, inside⟩
      clear member some
      induction children with
      | nil => exact fun tree stored => ⟨[], .nil tree, rfl, .nil⟩
      | cons child children ihAll =>
        intro tree stored
        obtain ⟨outline, adds, same, records⟩ := ih child (each child (.head _)) stored
        obtain ⟨outlines, adds', refs, records'⟩ :=
          ihAll (fun other inside => each other (.tail _ inside)) _ (adds.frame.stored stored)
        refine ⟨outline :: outlines, adds.beside adds', ?_, .cons records records'⟩
        exact congrArg₂ List.cons same refs
    obtain ⟨fills, skeleton⟩ := storesForm form some all tree stored
    exact fills.alloc skeleton span

theorem Stands.withRoot {term : Outline} (stands : tree.Stands term) (root : Ref) :
    { tree with root }.Stands term where
  shown := stands.shown.mono fun _ ⟨number, kind, place, stored, depicts⟩ =>
    ⟨number, kind, place, stored, ⟨depicts.slots, depicts.skeleton⟩⟩
  adopted := stands.adopted.mono fun _ => id
  once := stands.once

/-- A tree is a program once the root of a term that stands is made the root. -/
theorem setRoot_isProgram {term : Outline} (stored : tree.Stored)
    (stands : tree.Stands term) : (setRoot term.ref tree).2.IsProgram term := by
  have moved := (setParent_frame { tree with root := term.ref } term.ref none
    (fun other => absurd rfl other)).touch
  have storedHere : { tree with root := term.ref }.Stored :=
    ⟨stored.aligned, stored.slots, stored.entries, stored.links⟩
  obtain ⟨number, inside, place⟩ := stands.hasRef (ref_mem_refs term)
  refine ⟨?_, ?_, ?_, moved.stored storedHere⟩
  · refine (stands.withRoot term.ref).of_frame moved (fun _ _ => List.not_mem_nil)
      fun ref inner isMoved => ?_
    have isRoot := List.mem_singleton.1 isMoved
    exact ref_not_mem_innerRefs stands.once (isRoot ▸ inner)
  · exact (setParent_root { tree with root := term.ref } term.ref none).symm
  · have top : ({ tree with root := term.ref }.setParent term.ref none).parent term.ref = none := by
      rw [parent_setParent _ _ _ fun other same => ?_, if_pos rfl, ite_self]
      rw [place] at same
      cases same
      exact stored.aligned ▸ inside
    simpa [setRoot, Tree.parent] using top

/-- All of a tree without nodes is stored. -/
theorem empty_stored (clock : Nat) : (Tree.empty clock).Stored := by
  constructor <;> simp [Tree.empty, size]

/-- The tree of a term is a program that records the term, and its numbers are given in
post-order. -/
theorem exists_numbered_ofTerm (clock : Nat) (term : SourceTerm) :
    ∃ outline, (ofTerm clock term).IsProgram outline ∧ Records outline term ∧
      outline.postorder = (List.range (ofTerm clock term).size).map some := by
  have blank := empty_stored clock
  obtain ⟨outline, adds, same, records⟩ := exists_store term blank
  have stands := StandsAll.singleton_iff.1 adds.stands
  have program := setRoot_isProgram (adds.frame.stored blank) stands
  have size : (ofTerm clock term).size = (store term (Tree.empty clock)).2.size := by
    change (((_ : Tree).setParent _ none).touch).nodes.size = _
    rw [touch_nodes, setParent_nodes]
    rfl
  refine ⟨outline, ?_, records, ?_⟩
  · rwa [← same] at program
  · have numbered := adds.numbered
    rwa [List.flatMap_singleton, show (Tree.empty clock).size = 0 from rfl, Nat.sub_zero, ← size,
      ← List.range_eq_range'] at numbered

/-- The tree of a source text is a program that records the term that was read, numbered in
post-order. -/
theorem exists_numbered_of_parse {clock : Nat} {source : String}
    (parsed : Tree.parse clock source = .ok tree) :
    ∃ term outline, SourceTerm.parse source = .ok term ∧ tree.IsProgram outline ∧
      Records outline term ∧ outline.postorder = (List.range tree.size).map some := by
  rw [Tree.parse_eq] at parsed
  cases read : SourceTerm.parse source with
  | error failure => simp [read] at parsed
  | ok term =>
    rw [read] at parsed
    obtain rfl := Except.ok.inj parsed
    obtain ⟨outline, program, records, numbered⟩ := exists_numbered_ofTerm clock term
    exact ⟨term, outline, rfl, program, records, numbered⟩

/-- The tree of a term is a program that records the term. -/
theorem exists_isProgram_ofTerm (clock : Nat) (term : SourceTerm) :
    ∃ outline, (ofTerm clock term).IsProgram outline ∧ Records outline term := by
  obtain ⟨outline, program, records, -⟩ := exists_numbered_ofTerm clock term
  exact ⟨outline, program, records⟩

/-- The tree of a source text is a program that records the term that was read. -/
theorem exists_isProgram_of_parse {clock : Nat} {source : String}
    (parsed : Tree.parse clock source = .ok tree) : ∃ term outline,
      SourceTerm.parse source = .ok term ∧ tree.IsProgram outline ∧ Records outline term := by
  obtain ⟨term, outline, read, program, records, -⟩ := exists_numbered_of_parse parsed
  exact ⟨term, outline, read, program, records⟩

end Tree

end Refactory
