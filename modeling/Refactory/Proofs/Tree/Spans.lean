import Refactory.Proofs.Grammar.Extent
import Refactory.Proofs.Model.Scopes

/-!
# Spans of a tree

The nodes of a program take runs of its tokens, so their spans nest as the nodes do, and those of
siblings lie one after the other (`Term.Nests`). On such a tree the way down along covering children
misses no covering node (`Tree.IsProgram.exists_coveringBelow`), since at most one child covers a
span that is not empty.
-/
namespace Refactory

open Refactory.Part

variable {source : String}

namespace Term

/-- The spans of the children of a term lie within its own, and one after the other. -/
structure Nests {α : Type} (span : α → Span) (term : Term α) : Prop where
  /-- The spans of the children lie within that of the term. -/
  inside : ∀ child ∈ term.children, (span term.note).covers (span child.note) = true
  /-- A child ends before the next one starts. -/
  apart : term.children.Pairwise fun first second =>
    (span first.note).stop ≤ (span second.note).start

/-- Where the spans of a term nest, they nest before it is mapped to them. -/
theorem Nests.of_map {α : Type} {span : α → Span} {term : Term α}
    (nests : Nests id (term.map span)) :
    Nests span term := by
  obtain ⟨inside, apart⟩ := nests
  simp only [children_map, List.forall_mem_map, List.pairwise_map, note_map, id_eq] at inside apart
  exact ⟨inside, apart⟩

end Term

namespace Token

/-- Tokens that lie one after the other. -/
structure Ordered (tokens : List Token) : Prop where
  /-- No token ends before it starts. -/
  forward : ∀ token ∈ tokens, token.span.start ≤ token.span.stop
  /-- A token ends before the next one starts. -/
  ascending : tokens.Pairwise fun first second => first.span.stop ≤ second.span.start

namespace Ordered

variable {tokens others : List Token}

theorem sublist (ordered : Ordered tokens) (some : others.Sublist tokens) : Ordered others :=
  ⟨fun token member => ordered.forward token (some.subset member), ordered.ascending.sublist some⟩

/-- The first token starts before all others, and the last one ends behind them. -/
theorem bounds (ordered : Ordered tokens) (nonempty : tokens ≠ []) :
    ∀ token ∈ tokens, (tokens.head nonempty).span.start ≤ token.span.start ∧
      token.span.stop ≤ (tokens.getLast nonempty).span.stop := by
  intro token member
  constructor
  · obtain ⟨first, rest, rfl⟩ := List.exists_cons_of_ne_nil nonempty
    rcases List.mem_cons.1 member with rfl | member
    · exact Nat.le_refl _
    · have before := (List.pairwise_cons.1 ordered.ascending).1 token member
      have forward := ordered.forward first (.head _)
      simp only [List.head_cons]
      omega
  · have split := List.dropLast_append_getLast nonempty
    have ascending := ordered.ascending
    have forward := ordered.forward _ (List.getLast_mem nonempty)
    rw [← split] at ascending member
    rcases List.mem_append.1 member with member | member
    · have before := (List.pairwise_append.1 ascending).2.2 token member _ (.head _)
      omega
    · rw [List.mem_singleton.1 member]

end Ordered

/-- The tokens before the end of the input lie one after the other, and in the span of all of the
text. -/
theorem ordered_of_scan {used : List Token} {last : Token}
    (scanned : scan source = .ok (used ++ [last])) : Ordered used ∧ ∀ token ∈ used,
      0 ≤ token.span.start ∧ token.span.stop ≤ (Span.ofRange 0 source.utf8ByteSize).stop := by
  obtain ⟨found, scannedFrom, same⟩ := exists_scanFrom_of_scan scanned
  have divides := divides_of_scanFrom scannedFrom
  obtain ⟨ranges, rfl, inside⟩ := divides.ends
  rw [List.map_append] at same
  obtain ⟨rfl, -⟩ := List.append_inj' same rfl
  have ascending := List.pairwise_append.1 divides.ascending
  refine ⟨⟨?_, List.pairwise_map.2 (ascending.1.imp fun ends => ?_)⟩, ?_⟩
  · rw [List.forall_mem_map]
    intro range member
    exact min_le_min_right _ (Nat.le_of_lt (inside range member).2)
  · exact min_le_min_right _ ends
  · rw [List.forall_mem_map]
    intro range member
    exact ⟨Nat.zero_le _, min_le_min_right _ (ascending.2.2 range member _ (.head _))⟩

/-- Where all offsets of a text fit into spans, no token before the end of the input is empty. -/
theorem proper_of_inReach {used : List Token} {last : Token}
    (inReach : Text.InReach source) (scanned : scan source = .ok (used ++ [last])) :
    ∀ token ∈ used, token.span.start < token.span.stop := by
  rw [scan_eq_of_inReach inReach] at scanned
  obtain ⟨ranges, same, inside⟩ := (divides_of_scanFrom scanned).ends
  obtain ⟨rfl, -⟩ := List.append_inj' same rfl
  exact fun token member => (inside token member).2

end Token

namespace Part

variable {term : SourceTerm} {parts : List Part} {tokens : List Token}

/-- A run of tokens is some of the tokens. -/
theorem sublist_middle (before used after : List Token) : used.Sublist (before ++ used ++ after) :=
  (List.sublist_append_right before used).trans (List.sublist_append_left _ after)

/-- A node that takes tokens in order spans them from the start of the first to the end of the
last. -/
theorem Occupies.note_eq (occupies : Occupies term tokens) (ordered : Token.Ordered tokens) :
    ∃ nonempty,
      term.note = ⟨(tokens.head nonempty).span.start, (tokens.getLast nonempty).span.stop⟩ := by
  cases occupies with
  | intro nonempty written fills =>
    have first := ordered.bounds nonempty _ (List.getLast_mem nonempty)
    have last := ordered.bounds nonempty _ (List.head_mem nonempty)
    refine ⟨nonempty, ?_⟩
    simp only [Term.note, Span.hull, Nat.min_eq_left first.1, Nat.max_eq_right last.2]

/-- A node that takes tokens of which none is empty has a span that is not empty. -/
theorem Occupies.proper (occupies : Occupies term tokens) (ordered : Token.Ordered tokens)
    (proper : ∀ token ∈ tokens, token.span.start < token.span.stop) :
    term.note.start < term.note.stop := by
  obtain ⟨nonempty, spans⟩ := occupies.note_eq ordered
  have first := proper _ (List.head_mem nonempty)
  have last := (ordered.bounds nonempty _ (List.head_mem nonempty)).2
  rw [spans]
  exact Nat.lt_of_lt_of_le first last

/-- Every node among parts takes a run of the tokens that fill the parts, and a node before it takes
earlier tokens. -/
theorem Fills.nodes_apart (fills : Fills Occupies parts tokens) (ordered : Token.Ordered tokens) :
    (∀ term ∈ nodes parts, ∃ before used after, tokens = before ++ used ++ after ∧
      Occupies term used) ∧
      (nodes parts).Pairwise fun first second => first.note.stop ≤ second.note.start := by
  induction fills with
  | nil => exact ⟨by simp, .nil⟩
  | @own lexeme span parts tokens rest ih =>
    obtain ⟨runs, apart⟩ := ih (ordered.sublist (List.sublist_cons_self _ _))
    refine ⟨fun term member => ?_, apart⟩
    obtain ⟨before, used, after, rfl, occupies⟩ := runs term member
    exact ⟨_ :: before, used, after, rfl, occupies⟩
  | @node term used parts tokens here rest ih =>
    obtain ⟨runs, apart⟩ := ih (ordered.sublist (List.sublist_append_right _ _))
    rw [nodes_node]
    refine ⟨List.forall_mem_cons.2 ⟨⟨[], used, tokens, rfl, here⟩, fun other member => ?_⟩,
      List.pairwise_cons.2 ⟨fun other member => ?_, apart⟩⟩
    · obtain ⟨before, used', after, rfl, occupies⟩ := runs other member
      exact ⟨used ++ before, used', after, by simp only [List.append_assoc], occupies⟩
    · obtain ⟨before, used', after, rfl, occupies⟩ := runs other member
      obtain ⟨nonempty, spans⟩ := here.note_eq (ordered.sublist (List.sublist_append_left _ _))
      have within := sublist_middle before used' after
      obtain ⟨nonempty', spans'⟩ := occupies.note_eq
        (ordered.sublist (within.trans (List.sublist_append_right _ _)))
      rw [spans, spans']
      exact (List.pairwise_append.1 ordered.ascending).2.2 _ (List.getLast_mem nonempty) _
        (within.subset (List.head_mem nonempty'))

/-- The children of a node whose parts are filled nest in every span around the tokens. -/
theorem Fills.nests {form : Term.Form Span} {span : Span} (fills : Fills Occupies parts tokens)
    (ordered : Token.Ordered tokens) (children : nodes parts = Term.parts form)
    (around : ∀ token ∈ tokens, span.start ≤ token.span.start ∧ token.span.stop ≤ span.stop) :
    Term.Nests id (.node span form) := by
  obtain ⟨runs, apart⟩ := fills.nodes_apart ordered
  rw [children] at runs apart
  have spans {child : SourceTerm} (member : child ∈ Term.parts form) : ∃ used nonempty,
      used ⊆ tokens ∧
        child.note = ⟨(used.head nonempty).span.start, (used.getLast nonempty).span.stop⟩ := by
    obtain ⟨before, used, after, rfl, occupies⟩ := runs child member
    have within := sublist_middle before used after
    obtain ⟨nonempty, same⟩ := occupies.note_eq (ordered.sublist within)
    exact ⟨used, nonempty, within.subset, same⟩
  refine ⟨fun child member => ?_, apart⟩
  obtain ⟨used, nonempty, within, same⟩ := spans member
  have first := (around _ (within (List.head_mem nonempty))).1
  have last := (around _ (within (List.getLast_mem nonempty))).2
  have covers : span.covers child.note = true := by
    rw [same]
    simpa [Span.covers] using ⟨first, last⟩
  exact covers

/-- The tokens of a node fill parts among which are its children. -/
theorem Occupies.exists_fills {span : Span} {form : Term.Form Span}
    (occupies : Occupies (.node span form) tokens) :
    ∃ parts, nodes parts = Term.parts form ∧ Fills Occupies parts tokens := by
  cases occupies with
  | intro nonempty written fills => exact ⟨_, written.nodes_eq, fills⟩

/-- Below a node that takes tokens in order all spans nest. -/
theorem Occupies.all_nests (occupies : Occupies term tokens) (ordered : Token.Ordered tokens) :
    term.All (Term.Nests id) := by
  induction term using Term.induction generalizing tokens with
  | step span form ih =>
    obtain ⟨parts, children, fills⟩ := occupies.exists_fills
    obtain ⟨nonempty, spans⟩ := occupies.note_eq ordered
    obtain rfl : span = _ := spans
    refine .intro (fills.nests ordered children (ordered.bounds nonempty)) fun child member => ?_
    obtain ⟨before, used, after, rfl, below⟩ :=
      (fills.nodes_apart ordered).1 child (children.symm ▸ member)
    exact ih child member below (ordered.sublist (sublist_middle before used after))

/-- Below a node that takes tokens in order every node takes a run of them. -/
theorem Occupies.all_run (occupies : Occupies term tokens) (ordered : Token.Ordered tokens) :
    term.All fun part => ∃ before used after, tokens = before ++ used ++ after ∧
    Occupies part used := by
  induction term using Term.induction generalizing tokens with
  | step span form ih =>
    refine .intro ⟨[], tokens, [], by simp, occupies⟩ fun child member => ?_
    obtain ⟨parts, children, fills⟩ := occupies.exists_fills
    obtain ⟨before, used, after, rfl, below⟩ :=
      (fills.nodes_apart ordered).1 child (children.symm ▸ member)
    refine (ih child member below (ordered.sublist (sublist_middle before used after))).mono ?_
    rintro part ⟨before', used', after', rfl, takes⟩
    exact ⟨before ++ before', used', after' ++ after, by simp only [List.append_assoc], takes⟩

end Part

namespace Tree

open Term

/-- How the spans of a tree lie in the source text that it was read from. -/
structure SpansSource (tree : Tree) (source : String) : Prop where
  /-- The root spans the whole text. -/
  root : tree.span tree.root = ⟨0, source.utf8ByteSize⟩
  /-- Every other node takes a run of the tokens and goes from the start of the first to the end of
  the last. -/
  tokens : ∃ tokens, Token.scan source = .ok tokens ∧ ∀ ref ∈ tree.attached, ref ≠ tree.root →
    ∃ before used after, tokens = before ++ used ++ after ∧
      Occupies ((tree.outline ref).map Place.span) used ∧ ∃ nonempty,
        tree.span ref = ⟨(used.head nonempty).span.start, (used.getLast nonempty).span.stop⟩
  /-- No other node has an empty span. -/
  proper : ∀ ref ∈ tree.attached, ref ≠ tree.root → (tree.span ref).start < (tree.span ref).stop
  /-- The span of a child lies within that of its parent. -/
  inside : ∀ ref ∈ tree.attached, ∀ child ∈ tree.children ref,
    (tree.span ref).covers (tree.span child) = true
  /-- A child ends before the next one starts. -/
  apart : ∀ ref ∈ tree.attached, (tree.children ref).Pairwise fun first second =>
    (tree.span first).stop ≤ (tree.span second).start
  /-- A span in the text that is not empty has a covering node, and every other node that covers it
  is around that one. -/
  covering : ∀ span : Span, span.start < span.stop → span.stop ≤ source.utf8ByteSize →
    ∃ number, tree.covering? span = some number ∧ some number ∈ tree.attached ∧
      (tree.span (some number)).covers span = true ∧
        ∀ ref ∈ tree.attached, (tree.span ref).covers span = true → ref ∈ tree.lineage (some number)
  /-- A span that is not in the text has no covering node. -/
  outside : ∀ span, Span.covers ⟨0, source.utf8ByteSize⟩ span = false → tree.covering? span = none

section

variable {tree : Tree} {whole part : Outline} {span : Span}

/-- Of spans that lie one after the other at most one covers a span that is not empty. -/
theorem eq_of_covers {terms : List Outline} {first second : Outline}
    (apart : terms.Pairwise fun first second => first.note.span.stop ≤ second.note.span.start)
    (proper : span.start < span.stop) (firstMember : first ∈ terms) (secondMember : second ∈ terms)
    (firstCovers : first.note.span.covers span = true)
    (secondCovers : second.note.span.covers span = true) :
    first = second := by
  simp only [Span.covers, Bool.and_eq_true, decide_eq_true_eq] at firstCovers secondCovers
  induction apart with
  | nil => cases firstMember
  | cons before _ ih =>
    rcases List.mem_cons.1 firstMember with rfl | firstLater
    · rcases List.mem_cons.1 secondMember with rfl | secondLater
      · rfl
      · have ends := before second secondLater
        omega
    · rcases List.mem_cons.1 secondMember with rfl | secondLater
      · have ends := before first firstLater
        omega
      · exact ih firstLater secondLater

theorem covers_trans {outer inner : Span} (first : outer.covers inner = true)
    (second : inner.covers span = true) :
    outer.covers span = true := by
  simp only [Span.covers, Bool.and_eq_true, decide_eq_true_eq] at first second ⊢
  omega

/-- Where spans nest, a node covers what a node below it covers. -/
theorem covers_of_nests (nests : whole.All (Nests Place.span)) (within : part ∈ whole.subterms)
    (covers : part.note.span.covers span = true) : whole.note.span.covers span = true := by
  induction whole using Term.induction with
  | step place form ih =>
    rw [subterms_eq] at within
    rcases List.mem_cons.1 within with rfl | below
    · exact covers
    · obtain ⟨child, member, within⟩ := List.mem_flatMap.1 below
      exact covers_trans (nests.here.inside child member)
        (ih child member (nests.child member) within)

/-- On the way down to the node that covers a span are all nodes that cover it. -/
theorem IsProgram.exists_coveringBelow (program : tree.IsProgram whole)
    (nests : whole.All (Nests Place.span))
    (proper : span.start < span.stop) {bound : Nat} (within : part ∈ whole.subterms)
    (enough : part.subterms.length ≤ bound) (covers : part.note.span.covers span = true) :
    ∃ found ∈ whole.subterms, tree.coveringBelow span bound part.ref = found.ref ∧
      found.note.span.covers span = true ∧ tree.lineage part.ref ⊆ tree.lineage found.ref ∧
        ∀ other ∈ part.subterms, other.note.span.covers span = true →
        other.ref ∈ tree.lineage found.ref := by
  induction bound generalizing part with
  | zero =>
    rw [subterms_eq] at enough
    cases enough
  | succ bound ih =>
    have nested := nests.subterm within
    have inside {child : Outline} (member : child ∈ part.children) : child ∈ whole.subterms :=
      subterms_child within member
    have passes {child : Outline} (member : child ∈ part.children) :
        (!(tree.span child.ref).isNowhere && (tree.span child.ref).covers span) =
        child.note.span.covers span := by
      rw [(program.stands.shows (inside member)).span]
      -- What has no place in the source covers only what is empty.
      by_cases nowhere : child.note.span = Span.nowhere
      · have empty : Span.nowhere.covers span = false := by
          simp [Span.covers, Span.nowhere]
          omega
        rw [nowhere, empty, Bool.and_false]
      · rw [Span.isNowhere, beq_eq_false_iff_ne.2 nowhere, Bool.not_false, Bool.true_and]
    rw [coveringBelow, (program.stands.shows within).children, List.find?_map]
    -- The nodes below that cover the span are below a child that covers it.
    have below {other : Outline} (member : other ∈ part.subterms)
        (coversOther : other.note.span.covers span = true) :
        other = part ∨ ∃ child ∈ part.children, child.note.span.covers span = true ∧
          other ∈ child.subterms := by
      rw [subterms_eq] at member
      rcases List.mem_cons.1 member with rfl | member
      · exact .inl rfl
      · obtain ⟨child, isChild, member⟩ := List.mem_flatMap.1 member
        exact .inr
          ⟨child, isChild, covers_of_nests (nested.child isChild) member coversOther, member⟩
    cases found : part.children.find?
      ((fun child => !(tree.span child).isNowhere && (tree.span child).covers span) ∘ ref) with
    | none =>
      refine ⟨part, within, rfl, covers, fun _ => id, fun other member coversOther => ?_⟩
      rcases below member coversOther with rfl | ⟨child, isChild, coversChild, -⟩
      · exact .head _
      · have refused := List.find?_eq_none.1 found child isChild
        rw [Function.comp_apply, passes isChild] at refused
        exact absurd coversChild refused
    | some child =>
      have isChild := List.mem_of_find?_eq_some found
      have coversChild := List.find?_some found
      rw [Function.comp_apply, passes isChild] at coversChild
      have fewer := length_subterms_lt isChild
      obtain ⟨node, member, same, coversNode, lineage, others⟩ :=
        ih (inside isChild) (by omega) coversChild
      have above : tree.lineage child.ref = child.ref :: tree.lineage part.ref :=
        congrArg (child.ref :: ·) (program.ancestors_child within isChild)
      rw [above] at lineage
      refine ⟨node, member, same, coversNode, (List.cons_subset.1 lineage).2,
        fun other member coversOther => ?_⟩
      rcases below member coversOther with rfl | ⟨another, isAnother, coversAnother, member⟩
      · exact lineage (.tail _ (.head _))
      · obtain rfl :=
          eq_of_covers nested.here.apart proper isAnother isChild coversAnother coversChild
        exact others other member coversOther

/-- A tree whose spans nest has a covering node for every span that its root covers. -/
theorem IsProgram.exists_covering? (program : tree.IsProgram whole)
    (nests : whole.All (Nests Place.span))
    (proper : span.start < span.stop) (covers : whole.note.span.covers span = true) :
    ∃ number, tree.covering? span = some number ∧ some number ∈ tree.attached ∧
      (tree.span (some number)).covers span = true ∧ ∀ ref ∈ tree.attached,
        (tree.span ref).covers span = true → ref ∈ tree.lineage (some number) := by
  have shows {part : Outline} (within : part ∈ whole.subterms) := program.stands.shows within
  obtain ⟨root, -, isRoot, -, -⟩ := shows (self_mem_subterms whole)
  obtain ⟨found, within, same, coversFound, -, others⟩ := program.exists_coveringBelow nests proper
    (self_mem_subterms whole) (Nat.le_succ_of_le program.stands.length_le) covers
  obtain ⟨number, -, isNumber, -, -⟩ := shows within
  have rootSpan := (shows (self_mem_subterms whole)).span
  rw [isRoot] at same rootSpan
  refine ⟨number, ?_, ?_, ?_, fun ref member coversRef => ?_⟩
  · have isTreeRoot : tree.root = some root := program.root.symm.trans isRoot
    rw [covering?, isTreeRoot]
    dsimp only
    rw [rootSpan, if_pos covers, depthBound, same, isNumber]
  · rw [program.attached, ← isNumber]
    exact mem_refs.2 ⟨found, within, rfl⟩
  · rw [← isNumber, (shows within).span]
    exact coversFound
  · rw [program.attached] at member
    obtain ⟨other, inside, rfl⟩ := mem_refs.1 member
    rw [(shows inside).span] at coversRef
    exact isNumber ▸ others other inside coversRef

theorem IsProgram.covering?_eq_none (program : tree.IsProgram whole)
    (outside : whole.note.span.covers span = false) : tree.covering? span = none := by
  have shows := program.stands.shows (self_mem_subterms whole)
  have rootSpan := shows.span
  obtain ⟨root, -, isRoot, -, -⟩ := shows
  have isTreeRoot : tree.root = some root := program.root.symm.trans isRoot
  rw [isRoot] at rootSpan
  rw [covering?, isTreeRoot]
  dsimp only
  rw [rootSpan, outside, if_neg Bool.false_ne_true]

end

section

variable {outline : Outline} {span : Span} {members : List SourceTerm} {used : List Token}

/-- Where the members of a unit fill tokens in order, all spans nest. -/
theorem all_nests_of_fills (records : Records outline (.node span (.unit members)))
    (fills : Part.Fills Occupies (members.map .node) used) (ordered : Token.Ordered used)
    (around : ∀ token ∈ used, span.start ≤ token.span.start ∧ token.span.stop ≤ span.stop) :
    outline.All (Nests Place.span) := by
  have written : IsWritten (.unit members) (members.map .node) := rfl
  refine All.mono (fun _ => Nests.of_map) (all_map_iff.1 ?_)
  rw [records]
  refine .intro (fills.nests ordered written.nodes_eq around) fun member isMember => ?_
  obtain ⟨before, tokens, after, rfl, occupies⟩ := (fills.nodes_apart ordered).1 member
    (written.nodes_eq.symm ▸ isMember)
  exact occupies.all_nests (ordered.sublist (sublist_middle before tokens after))

/-- Where the members of a unit fill tokens in order, every node below the root takes a run of
them. -/
theorem exists_occupies_of_fills (records : Records outline (.node span (.unit members)))
    (fills : Part.Fills Occupies (members.map .node) used) (ordered : Token.Ordered used)
    {part : Outline}
    (within : part ∈ outline.subterms) : part = outline ∨ ∃ before tokens after,
      used = before ++ tokens ++ after ∧ Occupies (part.map Place.span) tokens := by
  have written : IsWritten (.unit members) (members.map .node) := rfl
  rw [subterms_eq] at within
  rcases List.mem_cons.1 within with rfl | below
  · exact .inl rfl
  · obtain ⟨child, isChild, within⟩ := List.mem_flatMap.1 below
    have isMember : child.map Place.span ∈ (Term.node span (.unit members)).children := by
      rw [← records, children_map]
      exact List.mem_map_of_mem isChild
    obtain ⟨before, tokens, after, rfl, occupies⟩ :=
      (fills.nodes_apart ordered).1 (child.map Place.span) (written.nodes_eq.symm ▸ isMember)
    have runs :=
      all_map_iff.1 (occupies.all_run (ordered.sublist (sublist_middle before tokens after)))
    obtain ⟨before', tokens', after', rfl, takes⟩ := all_iff_subterms.1 runs part within
    exact .inr
      ⟨before ++ before', tokens', after' ++ after, by simp only [List.append_assoc], takes⟩

end

/-- The spans of the term of a source text nest. -/
theorem exists_nests_of_parse {clock : Nat} {tree : Tree}
    (parsed : Tree.parse clock source = .ok tree) :
    ∃ outline, tree.IsProgram outline ∧ outline.All (Nests Place.span) := by
  obtain ⟨term, outline, read, program, records⟩ := exists_isProgram_of_parse parsed
  obtain ⟨members, used, rfl, scanned, fills⟩ := SourceTerm.exists_fills_of_parse read
  obtain ⟨ordered, around⟩ := Token.ordered_of_scan scanned
  exact ⟨outline, program, all_nests_of_fills records fills ordered around⟩

/-- The spans of the tree of a source text, all of whose offsets fit into spans. -/
theorem spansSource_of_parse {clock : Nat} {source : String} {tree : Tree}
    (inReach : Text.InReach source) (parsed : Tree.parse clock source = .ok tree) :
    tree.SpansSource source := by
  obtain ⟨term, outline, read, program, records⟩ := exists_isProgram_of_parse parsed
  obtain ⟨members, used, rfl, scanned, fills⟩ := SourceTerm.exists_fills_of_parse read
  obtain ⟨ordered, around⟩ := Token.ordered_of_scan scanned
  have nests := all_nests_of_fills records fills ordered around
  have rootSpan : outline.note.span = ⟨0, source.utf8ByteSize⟩ := by
    rw [← note_map Place.span outline, records]
    exact Span.ofRange_eq (Nat.zero_le _) inReach
  have shows {part : Outline} (within : part ∈ outline.subterms) := program.stands.shows within
  have takes {part : Outline} (within : part ∈ outline.subterms) (noRoot : part.ref ≠ tree.root) :
      ∃ before tokens after, used = before ++ tokens ++ after ∧
        Occupies (part.map Place.span) tokens := by
    refine (exists_occupies_of_fills records fills ordered within).resolve_left ?_
    rintro rfl
    exact noRoot program.root
  constructor
  case root => rw [← program.root, (shows (self_mem_subterms outline)).span, rootSpan]
  case tokens =>
    refine ⟨_, scanned, fun ref member noRoot => ?_⟩
    rw [program.attached] at member
    obtain ⟨part, within, rfl⟩ := mem_refs.1 member
    obtain ⟨before, tokens, after, rfl, occupies⟩ := takes within noRoot
    obtain ⟨nonempty, note⟩ :=
      occupies.note_eq (ordered.sublist (sublist_middle before tokens after))
    refine ⟨before, tokens, after ++ _, (List.append_assoc ..), ?_, nonempty, ?_⟩
    · rw [(program.stands.subterm within).outline]
      exact occupies
    · rw [(shows within).span, ← note_map Place.span, note]
  case proper =>
    intro ref member noRoot
    rw [program.attached] at member
    obtain ⟨part, within, rfl⟩ := mem_refs.1 member
    obtain ⟨before, tokens, after, rfl, occupies⟩ := takes within noRoot
    have some := sublist_middle before tokens after
    have proper := occupies.proper (ordered.sublist some) fun token taken =>
      Token.proper_of_inReach inReach scanned token (some.subset taken)
    rwa [note_map, ← (shows within).span] at proper
  case inside =>
    intro ref member
    rw [program.attached] at member
    obtain ⟨part, within, rfl⟩ := mem_refs.1 member
    rw [(shows within).children, List.forall_mem_map, (shows within).span]
    intro child isChild
    rw [(shows (subterms_child within isChild)).span]
    exact (nests.subterm within).here.inside child isChild
  case apart =>
    intro ref member
    rw [program.attached] at member
    obtain ⟨part, within, rfl⟩ := mem_refs.1 member
    rw [(shows within).children, List.pairwise_map]
    refine (nests.subterm within).here.apart.imp_of_mem fun firstMember secondMember ends => ?_
    rwa [(shows (subterms_child within firstMember)).span,
      (shows (subterms_child within secondMember)).span]
  case covering =>
    intro span proper inText
    refine program.exists_covering? nests proper ?_
    rw [rootSpan]
    simpa [Span.covers] using inText
  case outside =>
    intro span outside
    exact program.covering?_eq_none (rootSpan ▸ outside)

/-- The covering node of the second operand of a sum is the operand. -/
theorem spansSource_sum : ∃ tree, Tree.parse 0 "f(a + b);" = .ok tree ∧
    tree.covering? ⟨6, 7⟩ = some 2 ∧ tree.SpansSource "f(a + b);" := by
  have computed : (Tree.parse 0 "f(a + b);").toOption.any (fun tree =>
      tree.covering? ⟨6, 7⟩ == some 2) = true := by
    decide +kernel
  obtain ⟨tree, parsed, covers⟩ := exists_of_any computed
  exact ⟨tree, parsed, beq_iff_eq.1 covers, spansSource_of_parse (by decide +kernel) parsed⟩

/-- The spans of the tree of a text that is too long are not those of the text. -/
theorem not_spansSource_of_parse {clock : Nat} {tree : Tree}
    (tooLong : ¬Text.InReach source) (parsed : Tree.parse clock source = .ok tree) :
    ¬tree.SpansSource source := by
  obtain ⟨term, outline, read, program, records⟩ := exists_isProgram_of_parse parsed
  obtain ⟨members, used, rfl, -, -⟩ := SourceTerm.exists_fills_of_parse read
  intro spans
  have root : tree.span tree.root = outline.note.span := by
    rw [← program.root, (program.stands.shows (self_mem_subterms outline)).span]
  rw [spans.root, ← note_map Place.span outline, records] at root
  have stop : source.utf8ByteSize = min source.utf8ByteSize Span.largestOffset :=
    congrArg Span.stop root
  exact tooLong (min_eq_left_iff.1 stop.symm)

/-- The tree of a text that is longer than the largest offset, and whose root does not span it. -/
theorem not_spansSource_sum_beyond : ∃ tree,
    Tree.parse 0 (Text.longName Span.largestOffset ++ "+y;") = .ok tree ∧
      ¬tree.SpansSource (Text.longName Span.largestOffset ++ "+y;") := by
  obtain ⟨tree, parsed, -⟩ := exists_parse_sum_beyond 0
  refine ⟨tree, parsed, not_spansSource_of_parse (fun inReach => ?_) parsed⟩
  rw [Text.InReach, String.utf8ByteSize_append, ← String.utf8Len_toList,
    Token.utf8Len_longName] at inReach
  exact absurd inReach (Nat.not_le.2 (Nat.lt_add_of_pos_right (by decide)))

end Tree

end Refactory
