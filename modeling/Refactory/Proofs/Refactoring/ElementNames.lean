import Refactory.Proofs.Refactoring.LoopBodies
import Refactory.Proofs.Refactoring.Preservation

/-!
# What names mean in a converted loop

When a loop over elements comes in the place of a counted loop, the names that stand in the place of
the elements of the collection refer to the new variable, and every other name in the body refers to
what it referred to before, wherever that is then (`CountedLoop.Converts.declarationOf_value`,
`CountedLoop.Converts.declarationOf_moved`). For the name of the variable is new in the loop, so
that nothing in the body hides it and it hides nothing; and all uses of the counter are in the
elements, so that no name in the body is bound by the loop any more.
-/
namespace Refactory

open Term Refactory.Tree

namespace CountedLoop

/-- A name has come in the place of the elements that the body of a counted loop reads, and refers
to what is declared at a node. -/
structure NamesElements (loop : CountedLoop) (tree after : Tree) (declared : Ref) (name : String)
    (value : Outline → Outline)
    (moved : Ref → Ref) (body : Outline) : Prop where
  /-- The name stands where the elements stood, and nothing else has changed. -/
  shape : (body.replacing
    (tree.isElementAt (Model.build tree) loop.counter loop.collection) value moved).shape =
    body.shapeNaming (tree.isElementAt (Model.build tree) loop.counter loop.collection) name
  /-- As many elements were replaced as there were uses of the counter. -/
  count : (body.topmost (tree.isElementAt (Model.build tree) loop.counter loop.collection)).length =
    ((tree.descendants loop.body).filter
    ((Model.build tree).symbolOf · == some loop.counter)).length
  /-- The names that were put into the body refer to the new variable. -/
  named : ∀ part ∈ body.topmost (tree.isElementAt (Model.build tree) loop.counter loop.collection),
    (value part).kind = .ident name ∧
    (Model.build after).declarationOf (value part).ref = some declared
  /-- Nothing has moved but nodes of the body. -/
  stays : ∀ ref ∉ body.refs, moved ref = ref
  /-- All other names did not refer to the counter, and they refer to what they referred to
  before. -/
  others : ∀ part ∈ body.remaining (tree.isElementAt
    (Model.build tree) loop.counter loop.collection), ∀ spelled,
    part.kind = .ident spelled → (Model.build tree).symbolOf part.ref ≠ some loop.counter ∧
      (Model.build after).declarationOf (moved part.ref)
      = ((Model.build tree).declarationOf part.ref).map moved
  /-- No name in the body refers to what declared the counter. -/
  unused : ∀ part ∈ (body.replacing
    (tree.isElementAt (Model.build tree) loop.counter loop.collection) value moved).subterms,
    ∀ declaration, (Model.build after).declarationOf part.ref = some declaration →
      (Model.build tree).declaredSymbol declaration ≠ some loop.counter

section

variable {loop : CountedLoop} {tree after : Tree}
  {whole term collection declarator converted body part : Outline} {name counter : String}
  {value : Outline → Outline} {moved : Ref → Ref} {model : Model}

/-- The body of a counted loop is read where the name of the counter means its declarator. -/
theorem Stands.visit_body {listed listed' : Bool} {env env' : Environment}
    (stands : loop.Stands tree model term collection declarator (some body) counter)
    (inPlace : term.All InPlace)
    (visited : ⟨term, listed', env'⟩ ∈ visits listed whole env) :
    ⟨body, false, (counter, declarator.ref) :: env'⟩ ∈ visits listed whole env := by
  obtain ⟨_, _, _, _, _, _, form, formDeclaration, -⟩ := stands.form
  obtain ⟨_, formDeclarator⟩ := stands.declares
  exact visit_counted inPlace form formDeclaration formDeclarator visited

/-- What declares the counter is neither in the collection nor in the body. -/
theorem Stands.not_mem_refs
    (stands : loop.Stands tree model term collection declarator (some body) counter)
    (once : term.refs.Nodup) :
    declarator.ref ∉ ([body] ++ [collection]).flatMap refs ∧ declarator.ref ∈ term.refs := by
  obtain ⟨declaration, condition, steps, _, _, bound, form, formDeclaration, formCondition,
    isSize⟩ := stands.form
  have heldDeclarator : declarator ∈ declaration.children := by
    simp [Term.children, formDeclaration, parts]
  have inDeclaration : declarator.ref ∈ declaration.refs :=
    mem_refs.2 ⟨_, child_mem_subterms heldDeclarator, rfl⟩
  have inCondition : collection.refs ⊆ condition.refs := by
    have held : bound ∈ condition.children := by simp [Term.children, formCondition, parts]
    exact refs_subset (mem_subterms_of_child held isSize.mem_subterms)
  have apart :
      (declaration.refs ++ (condition.refs ++ (steps.flatMap refs ++ body.refs))).Nodup := by
    rw [refs_eq, List.nodup_cons] at once
    have inner := once.2
    simpa [innerRefs, Term.children, form, parts] using inner
  have disjoint := (List.nodup_append'.1 apart).2.2 inDeclaration
  have heldDeclaration : declaration ∈ term.children := by simp [Term.children, form, parts]
  refine ⟨fun inside => disjoint ?_, refs_subset (child_mem_subterms heldDeclaration) inDeclaration⟩
  simp only [List.singleton_append, List.flatMap_cons, List.flatMap_nil, List.append_nil,
    List.mem_append] at inside ⊢
  exact inside.elim (fun inBody => .inr (.inr inBody)) fun inCollection =>
    .inl (inCondition inCollection)

variable
  (converts : loop.Converts tree (Model.build tree) whole term collection
    (some body) name value moved converted after)
  (stands : loop.Stands tree (Model.build tree) term collection declarator (some body) counter)
  (unit : tree.IsUnit whole) (within : term ∈ whole.subterms)

include stands in
/-- Elements are expressions. -/
theorem Stands.sort_of_topmost (isHit : part ∈
      body.topmost (tree.isElementAt (Model.build tree) loop.counter collection.ref)) :
    part.kind.sort = .expression := by
  have standsBody := stands.apart.each body (by simp)
  obtain ⟨inside, hit⟩ := topmost_subset _ body part isHit
  obtain ⟨receiver, position, form, -⟩ := (isElementAt_iff (standsBody.shown.subterm inside)
    (stands.apart.each collection (by simp)).displays).1 hit
  rw [form]
  rfl

include converts stands in
/-- Names come in the place of the elements. -/
theorem Converts.exchanged (isHit : part ∈
      body.topmost (tree.isElementAt (Model.build tree) loop.counter collection.ref)) :
    part.kind.sort = .expression ∧ (value part).kind.sort = .expression ∧
    (value part).All InPlace := by
  have isName := converts.named body rfl part isHit
  exact ⟨stands.sort_of_topmost isHit, by rw [isName]; rfl,
    all_inPlace_of_form isName .nil (by simp [parts])⟩

include converts stands unit within

/-- The loop over elements is in place. -/
theorem Converts.inPlace : converted.All InPlace := by
  have inPlace := unit.inPlace.subterm within
  obtain ⟨_, condition, _, _, _, bound, form, -, formCondition, isSize⟩ := stands.form
  have heldCondition : condition ∈ term.children := by simp [Term.children, form, parts]
  have heldBound : bound ∈ condition.children := by simp [Term.children, formCondition, parts]
  have sorts := inPlace.here.sorts
  rw [form] at sorts
  obtain ⟨-, -, -, -, sortBody⟩ : _ ∧ _ ∧ _ ∧ _ ∧ _ := by
    simpa only [Kind.slots, Kind.childSorts, List.forall₂_cons, fits_one, fits_many,
      List.forall₂_nil_left_iff, and_true] using sorts
  have sortCollection : collection.kind.sort = .expression := by
    have inPlaceBound := (inPlace.child heldCondition).child heldBound
    cases isSize with
    | member form =>
      have fits := inPlaceBound.here.sorts
      rw [form] at fits
      simpa [Kind.slots, Kind.childSorts, fits_one] using fits
    | @call access _ form formAccess =>
      have held : access ∈ bound.children := by simp [Term.children, form, parts]
      have fits := (inPlaceBound.child held).here.sorts
      rw [formAccess] at fits
      simpa [Kind.slots, Kind.childSorts, fits_one] using fits
  refine converts.form.all_inPlace
    ⟨((inPlace.child heldCondition).child heldBound).subterm isSize.mem_subterms, sortCollection⟩
    fun new isNew => ?_
  obtain rfl := Option.some.inj (Option.mem_def.1 isNew)
  obtain ⟨inPlaceNew, sort⟩ :=
    @all_inPlace_replacing _ value moved body (inPlace.child stands.body_mem_children)
    fun part isHit => converts.exchanged stands isHit
  exact ⟨inPlaceNew, sort.trans (by simpa using sortBody)⟩

/-- The program with the loop over elements is that of a unit. -/
theorem Converts.isUnit : after.IsUnit (Term.swap term.ref converted whole) := by
  obtain ⟨_, _, _, _, _, _, form, -⟩ := stands.form
  obtain ⟨_, formNew⟩ := converts.form
  have sort : term.kind.sort = .statement := by rw [form]; rfl
  exact unit.swap within converts.program (converts.inPlace stands unit within)
    (by rw [formNew, sort]; rfl) (.inr sort)

/-- The loop over elements is read where the counted loop was. -/
theorem Converts.visit_converted {listed : Bool} {env : Environment}
    (visited : ⟨term, listed, env⟩ ∈ visits false whole []) :
    ⟨converted, listed, env⟩ ∈ visits false (Term.swap term.ref converted whole) [] := by
  obtain ⟨_, _, _, _, _, _, form, -⟩ := stands.form
  obtain ⟨_, formNew⟩ := converts.form
  have inPlaceNew := converts.inPlace stands unit within
  have inPlace := unit.inPlace.subterm within
  have substitutes : Substitutes converted term := by
    refine ⟨by rw [form]; simp [Kind.sort], ?_, fun listed env => ?_⟩
    · rcases term with ⟨_, kind⟩
      rcases converted with ⟨_, kindNew⟩
      obtain rfl : kind = _ := form
      obtain rfl : kindNew = _ := formNew
      exact ⟨rfl, rfl⟩
    · rw [environment_of_loop inPlace (.inl ⟨_, _, _, _, _, form⟩),
        environment_of_loop inPlaceNew (.inr ⟨_, _, _, _, formNew⟩)]
  have elsewhere := visit_swap substitutes unit.inPlace
    (fun part inside => subterm_unique unit.stands.once inside within)
    (fun _ => rfl) visited
  rwa [swap_self] at elsewhere

/-- Nothing in the new body declares the name of the variable. -/
theorem Converts.undeclared (fresh : name ∉ tree.namesIn term.ref) :
    ∀ part ∈ (body.replacing
      (tree.isElementAt (Model.build tree) loop.counter collection.ref) value moved).subterms,
      part.kind.declaredName? ≠ some name := by
  intro part inside
  rcases exists_of_mem_subterms_replacing inside with ⟨hit, isHit, inValue⟩ | ⟨old, remains, rfl⟩
  · have isName := converts.named body rfl hit isHit
    rw [subterms_eq] at inValue
    obtain rfl : part = value hit := by simpa [Term.children, isName, parts] using inValue
    simp [isName, Kind.declaredName?]
  · obtain ⟨inBody, miss⟩ := remaining_subset _ body old remains
    rw [kind_replacing miss, Kind.declaredName?_of_skeleton (skeleton_mapChildren _ _)]
    exact ((unit.stands.subterm within).unnamed_of_namesIn fresh
      (mem_subterms_of_child stands.body_mem_children inBody)).2

/-- The names that come in the place of elements refer to the new loop. -/
theorem Converts.declarationOf_value (fresh : name ∉ tree.namesIn term.ref) (isHit : part ∈
      body.topmost (tree.isElementAt (Model.build tree) loop.counter collection.ref)) :
    (Model.build after).declarationOf (value part).ref = some converted.ref := by
  have isName := converts.named body rfl part isHit
  obtain ⟨_, _, _, _, _, _, form, -⟩ := stands.form
  obtain ⟨_, formNew⟩ := converts.form
  have inPlaceNew := converts.inPlace stands unit within
  obtain ⟨listed, env, visited⟩ :=
    exists_visit unit.inPlace within (by rw [form]; simp [Kind.sort]) false []
  have inBody := @replacing_mem_subterms _ value moved _ _ (.inr isHit)
  rw [replacing_of_hit (topmost_subset _ body part isHit).2] at inBody
  obtain ⟨listed', env', visitedName⟩ := exists_visit
    (inPlaceNew.child (by simp [Term.children, formNew, parts])) inBody
    (by rw [isName]; simp [Kind.sort]) false
    ((name, converted.ref) :: env)
  have visitedBody :=
    visit_elements inPlaceNew formNew (converts.visit_converted stands unit within visited)
  rw [(converts.isUnit stands unit within).declarationOf_of_visit
    (visits_trans visitedBody visitedName) isName]
  have found := lookup_of_visit (converts.undeclared stands unit within fresh) visitedName
  dsimp only at found
  rw [found, List.lookup_cons_self]

/-- All other names of the body refer to what they referred to before. -/
theorem Converts.declarationOf_moved (safe : loop.hazard? tree (Model.build tree) = none)
    (fresh : name ∉ tree.namesIn term.ref) (stays : ∀ ref ∉ body.refs, moved ref = ref)
    {spelled : String} (remains : part ∈
      body.remaining (tree.isElementAt (Model.build tree) loop.counter collection.ref))
    (isName : part.kind = .ident spelled) :
    (Model.build after).declarationOf (moved part.ref) =
    ((Model.build tree).declarationOf part.ref).map moved := by
  obtain ⟨inside, miss⟩ := remaining_subset _ body part remains
  obtain ⟨_, _, _, _, _, _, form, -⟩ := stands.form
  obtain ⟨_, formNew⟩ := converts.form
  have inPlace := unit.inPlace.subterm within
  have inPlaceBody := inPlace.child stands.body_mem_children
  have named : part.kind.sort ∉ [NodeSort.type, .param] := by rw [isName]; simp [Kind.sort]
  obtain ⟨listed, env, visited⟩ :=
    exists_visit unit.inPlace within (by rw [form]; simp [Kind.sort]) false []
  obtain ⟨listed', env', visitedName⟩ :=
    exists_visit inPlaceBody inside named false ((counter, declarator.ref) :: env)
  obtain ⟨front, rfl, elsewhere⟩ := exists_visits_of_visit visitedName
  have refers := unit.declarationOf_of_visit
    (visits_trans (stands.visit_body inPlace visited) visitedName) isName
  -- What the body binds in front of the name is bound in front of it still, wherever it is now.
  have moves := @visit_replacing _ value moved false body [] (fun other isHit => by
      obtain ⟨sort, sortNew, inPlaceNew⟩ := converts.exchanged stands isHit
      exact .of_sort (inPlaceBody.subterm (topmost_subset _ body other isHit).1) inPlaceNew
        (by simp [sort]) (by simp [sortNew]))
    inPlaceBody _ (fun hit isHit inHit => absurd inHit
      (not_mem_subterms_of_remaining (stands.apart.each body (by simp)).once remains isHit))
      (elsewhere [])
  rw [List.append_nil] at moves
  obtain ⟨front', same, elsewhereNew⟩ := exists_visits_of_visit moves
  replace same : moveAll moved front = front' := same.trans (List.append_nil _)
  have visitedNew := visits_trans (visit_elements (converts.inPlace stands unit within) formNew
    (converts.visit_converted stands unit within visited))
    (elsewhereNew ((name, converted.ref) :: env))
  have isNameNew : (part.replacing
      (tree.isElementAt (Model.build tree) loop.counter collection.ref) value moved).kind =
      .ident spelled := by
    rw [kind_replacing miss, isName]
    rfl
  have refersNew := (converts.isUnit stands unit within).declarationOf_of_visit visitedNew isNameNew
  dsimp only at refersNew
  rw [ref_replacing miss] at refersNew
  rw [refersNew, ← same, refers, List.lookup_append, List.lookup_append, lookup_moveAll]
  cases inFront : front.lookup spelled with
  | some declaration => rfl
  | none =>
    rw [List.lookup_append, inFront, Option.none_or] at refers
    -- The name is neither that of the new variable nor that of the counter, which only elements
    -- use.
    have other : spelled ≠ name := by
      rintro rfl
      exact ((unit.stands.subterm within).unnamed_of_namesIn fresh
        (mem_subterms_of_child stands.body_mem_children inside)).1 isName
    have noCounter : spelled ≠ counter := by
      rintro rfl
      rw [List.lookup_cons_self] at refers
      obtain ⟨symbol, isSymbol, declares⟩ := unit.exists_symbol_of_declarationOf refers
      rw [stands.counter] at declares
      exact stands.symbolOf_of_remaining unit within safe remains (isSymbol.trans declares.symm)
    rw [Option.map_none, Option.none_or, Option.none_or, List.lookup_cons, List.lookup_cons,
      beq_false_of_ne other, beq_false_of_ne noCounter]
    cases around : env.lookup spelled with
    | none => rfl
    | some declaration =>
      have real : none ∉ whole.refs := fun absent => (unit.stands.hasRef absent).ne_none rfl
      have outside := not_mem_refs_of_loop unit.stands.once real unit.inPlace within
        (.inl ⟨_, _, _, _, _, form⟩) visited (fun _ => rfl) around
      refine congrArg some (stays declaration fun inBody => outside ?_).symm
      exact refs_subset (child_mem_subterms stands.body_mem_children) inBody

/-- What declared the counter is no longer in the program. -/
theorem Converts.not_mem_refs : declarator.ref ∉ (Term.swap term.ref converted whole).refs := by
  have once := unit.stands.once.sublist (refs_sublist within)
  obtain ⟨apart, inTerm⟩ := stands.not_mem_refs once
  intro inside
  rcases (mem_refs_swap unit.stands.once within).1 inside with ⟨-, outside⟩ | inConverted
  · exact outside inTerm
  · exact apart (converts.origin _ inConverted (unit.stands.hasRef (refs_subset within inTerm)))

/-- A name that is free in the loop has come in the place of the elements. -/
theorem Converts.namesElements (safe : loop.hazard? tree (Model.build tree) = none)
    (fresh : name ∉ tree.namesIn term.ref)
    (stays : ∀ ref ∉ body.refs, moved ref = ref) :
    loop.NamesElements tree after converted.ref name value moved body := by
  refine ⟨?_, ?_, ?_, stays, ?_, ?_⟩
  all_goals rw [stands.isCollection]
  · exact shape_replacing_of_names (converts.named body rfl)
  · exact (stands.length_uses unit within safe).symm
  · exact fun part isHit => ⟨converts.named body rfl part isHit,
      converts.declarationOf_value stands unit within fresh isHit⟩
  · exact fun part remains spelled isName => ⟨stands.symbolOf_of_remaining unit within safe remains,
      converts.declarationOf_moved stands unit within safe fresh stays remains isName⟩
  · intro part inside declaration refers declares
    obtain rfl := unit.eq_of_declaredSymbol declares stands.counter
    exact converts.not_mem_refs stands unit within
      ((converts.isUnit stands unit within).mem_refs_of_declarationOf refers)

omit stands unit within in
/-- Where nodes move that are not in the body does not matter. -/
theorem Converts.ofBody :
    loop.Converts tree (Model.build tree) whole term collection (some body) name value
      (fun ref => if ref ∈ body.refs then moved ref else ref) converted after := by
  have same :
      body.replacing (tree.isElementAt (Model.build tree) loop.counter collection.ref) value moved =
      body.replacing (tree.isElementAt (Model.build tree) loop.counter collection.ref) value
        fun ref => if ref ∈ body.refs then moved ref else ref :=
    replacing_congr (fun _ _ => rfl) fun ref inside => (if_pos inside).symm
  refine ⟨converts.program, ?_, converts.named, converts.origin⟩
  rw [Option.map_some, ← same]
  exact converts.form

end

end CountedLoop

namespace Context

/-- Where a counted loop is converted there is one without a hazard. -/
theorem exists_convertedLoop {context : Context} {ref : Ref} {action : Action}
    (offered : context.offered? .forToForEach ref = .ok (some action)) :
    ∃ loop, context.convertedLoop? ref = some loop := by
  cases found : context.convertedLoop? ref with
  | some loop => exact ⟨loop, rfl⟩
  | none =>
    have nothing : Attempt.Gives (context.forToForEach ref) (Offers fun _ => False) := by
      rw [forToForEach]
      refine (context.firstSafe_find _).bind fun safe isSafe => ?_
      obtain rfl : safe = none := isSafe.trans found
      exact Attempt.none_offers
    exact (@of_offered _ .forToForEach _ _ _ nothing.yields offered).elim

/-- When a counted loop is converted and one of the names that are tried for the new variable is
free, the new loop has the body of the old one, in which the name stands in the place of the
elements of the collection and nothing else has changed. There were as many of them as uses of the
counter, which has no use in the new body. All of these names refer to the new loop, and all other
names in the body refer to what they referred to before, or to nothing as before. -/
theorem forToForEach_namesElements {tree : Tree} {settings : Settings} {ref : Ref} {action : Action}
    (wellFormed : tree.WellFormed) (sorted : tree.IsSorted) (member : ref ∈ tree.attached)
    (free : ∀ loop, (ofTree tree settings).convertedLoop? ref = some loop →
      ∃ name ∈ loop.suggestedNames tree (Model.build tree) ++ settings.iteration.candidates
        NameScope.searchLimit, ((ofTree tree settings).namesAt loop.ref).isFree name = true)
    (offered : (ofTree tree settings).offered? .forToForEach ref = .ok (some action)) :
    ∃ loop converted body value moved, (ofTree tree settings).convertedLoop? ref = some loop ∧
      action.result.outline action.result.root
        = Term.swap loop.ref converted (tree.outline tree.root) ∧
      loop.body = refOf body ∧ (∀ inner ∈ body, inner ∈ (tree.outline tree.root).subterms) ∧
      CountedLoop.IsElementLoop ((ofTree tree settings).elementName loop)
      (tree.outline loop.collection) (body.map (replacing (tree.isElementAt
          (Model.build tree) loop.counter loop.collection) value moved)) converted ∧
      ∀ inner ∈ body, loop.NamesElements tree action.result converted.ref
      ((ofTree tree settings).elementName loop) value moved inner := by
  obtain ⟨whole, unit⟩ := sorted.exists_isUnit wellFormed
  obtain ⟨loop, found⟩ := exists_convertedLoop offered
  obtain ⟨safe, term, within, collection, declarator, body, counter, stands⟩ :=
    @stands_of_convertedLoop? (ofTree tree settings)
    _ _ _ unit.toIsProgram (unit.attached ▸ member) found
  obtain ⟨value, moved, converted, converts⟩ :=
    @of_offered _ .forToForEach _ _ _ (@forToForEach_names (ofTree tree settings) _ _ _
    _ _ _ _ _ unit.toIsProgram within found stands).yields offered
  have fresh : (ofTree tree settings).elementName loop ∉ tree.namesIn term.ref :=
    stands.isLoop ▸ not_mem_namesIn_of_isFree (NameScope.isFree_pick (free loop found))
  have isCollection : tree.outline loop.collection = collection := by
    rw [stands.isCollection]
    exact (stands.apart.each collection (by simp)).outline
  rw [unit.outline_root]
  cases body with
  | none =>
    refine ⟨loop, converted, none, value, moved, found, ?_,
      stands.isBody, by simp, isCollection ▸ converts.form, by simp⟩
    rw [converts.program.outline_root, stands.isLoop]
  | some body =>
    have inside := subterms_child within stands.body_mem_children
    refine ⟨loop, converted, some body, value, fun ref => if ref ∈ body.refs then moved ref
      else ref, found, ?_, stands.isBody, by simpa using inside, ?_, ?_⟩
    · rw [converts.program.outline_root, stands.isLoop]
    · rw [isCollection, stands.isCollection]
      exact converts.ofBody.form
    · rintro _ ⟨rfl⟩
      exact converts.ofBody.namesElements stands unit within safe fresh fun ref outside =>
        if_neg outside

/-- Two elements, one of which is the value of a variable in the body. -/
theorem forToForEach_namesElements_of_block : ∃ tree action loop converted body value moved,
    Tree.parse
    0 "int[] xs = a; for (int i = 0; i < xs.Length; i++) \x7b var k = xs[i]; F(k, xs[i]); \x7d" =
    .ok tree ∧ (ofTree tree {}).offered? .forToForEach (some 30) = .ok (some action) ∧
      (ofTree tree {}).convertedLoop? (some 30) = some loop ∧ loop.body = refOf (some body) ∧
      body ∈ (tree.outline tree.root).subterms ∧
      loop.NamesElements tree action.result converted "x" value moved body := by
  have facts : (Tree.parse 0
      "int[] xs = a; for (int i = 0; i < xs.Length; i++) \x7b var k = xs[i]; F(k, xs[i]); \x7d"
      ).toOption.any (fun tree =>
        some 30 ∈ tree.attached &&
          ((ofTree tree {}).convertedLoop? (some 30)).any (fun loop => loop.body = some 29 &&
          "x" ∈ loop.suggestedNames tree (Model.build tree) && (ofTree tree {}).elementName loop
          = "x" && ((ofTree tree {}).namesAt loop.ref).isFree "x") &&
          ((ofTree tree {}).offered? .forToForEach (some 30)).toOption.any Option.isSome)
          = true := by
    decide +kernel
  obtain ⟨tree, parsed, facts⟩ := exists_of_any facts
  simp only [Bool.and_eq_true, decide_eq_true_eq, Option.any_eq_true] at facts
  obtain ⟨⟨member, loop, found, ⟨⟨atBody, suggested⟩, isName⟩, isFree⟩, offered, isOffered,
    isAction⟩ := facts
  obtain ⟨action, rfl⟩ := Option.isSome_iff_exists.1 isAction
  obtain ⟨other, converted, body, value, moved, foundOther, -, isBody, inside, -, names⟩ :=
    forToForEach_namesElements
      (wellFormed_of_parse parsed) (isSorted_of_parse parsed) member (fun other foundOther => by
        obtain rfl : loop = other := Option.some.inj (found.symm.trans foundOther)
        exact ⟨"x", List.mem_append_left _ suggested, isFree⟩) (eq_ok_of_toOption isOffered)
  obtain rfl : loop = other := Option.some.inj (found.symm.trans foundOther)
  cases body with
  | none =>
    rw [atBody, refOf_none] at isBody
    cases isBody
  | some body =>
    exact ⟨tree, action, loop, converted.ref, body, value, moved, parsed,
      eq_ok_of_toOption isOffered, found, isBody, inside body rfl, isName ▸ names body rfl⟩

end Context

end Refactory
