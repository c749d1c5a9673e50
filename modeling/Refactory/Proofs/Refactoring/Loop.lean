import Refactory.Refactoring.Loop
import Refactory.Proofs.Code.Placing
import Refactory.Proofs.Code.Substitution
import Refactory.Proofs.Refactoring.Attempt

/-!
# Converting loops keeps programs

Either conversion makes the new loop of the body and of the collection of the old one, which stand
apart within it, and puts it in the place of the old one. A declaration of a variable for the
collection stands apart from the program until it comes in front of the new loop.
-/
namespace Refactory

namespace Tree

open Term

variable {tree : Tree} {term : Outline}

/-- An expression that reads the size of a collection, as a member or by a call. -/
inductive IsSizeOf (collection : Option Outline) (bound : Outline) : Prop
  /-- A member. -/
  | member {name : String} (form : bound.kind = .member collection name false)
  /-- A call without arguments. -/
  | call {access : Outline} {arguments : List Outline}
      (form : bound.kind = .invoke (some access) arguments)
      (formAccess : access.kind = .member collection "Count" false)

/-- The collection is a part of the expression. -/
theorem IsSizeOf.mem_subterms {collection bound : Outline}
    (isSize : IsSizeOf (some collection) bound) :
    collection ∈ bound.subterms := by
  cases isSize with
  | member form => exact child_mem_subterms (by simp [Term.children, form, parts])
  | @call access arguments form formAccess =>
    have held : access ∈ bound.children := by simp [Term.children, form, parts]
    exact mem_subterms_of_child held
      (child_mem_subterms (by simp [Term.children, formAccess, parts]))

/-- What is found to read the size of a collection reads it. -/
theorem sizedCollection?_eq_some {bound : Option Outline} {collection : Ref}
    (shown : ∀ term ∈ bound, term.All tree.Shows)
    (found : tree.sizedCollection? (refOf bound) = some collection) :
    ∃ term within, bound = some term ∧ collection = refOf within ∧ IsSizeOf within term := by
  rw [sizedCollection?] at found
  split at found
  · rename_i target name isMember
    obtain ⟨access, rfl⟩ := exists_of_kind isMember (by simp)
    split at found
    · obtain rfl := Option.some.inj found
      have depicts := (shown access rfl).here.depicts
      rw [show tree.kind access.ref = _ from isMember] at depicts
      obtain ⟨within, form, rfl⟩ := depicts.member
      exact ⟨access, within, rfl, rfl, .member form⟩
    · cases found
  · rename_i callee arguments isInvoke
    obtain ⟨call, rfl⟩ := exists_of_kind isInvoke (by simp)
    have shown := shown call rfl
    have depicts := shown.here.depicts
    rw [show tree.kind call.ref = _ from isInvoke] at depicts
    obtain ⟨callee, arguments, form, rfl, -⟩ := depicts.invoke
    split at found
    · rename_i target isMember
      split at found
      · obtain rfl := Option.some.inj found
        obtain ⟨access, rfl⟩ := exists_of_kind isMember (by simp)
        have isChild : access ∈ call.children := by simp [Term.children, form, parts]
        have depicts := (shown.child isChild).here.depicts
        rw [show tree.kind access.ref = _ from isMember] at depicts
        obtain ⟨within, formAccess, rfl⟩ := depicts.member
        exact ⟨call, within, rfl, rfl, .call form formAccess⟩
      · cases found
    · cases found
  · cases found

end Tree

open Term Refactory.Tree in
/-- A counted loop stands with its parts: it declares a counter that starts from zero and is tested
against the size of the collection. -/
structure CountedLoop.Stands (loop : CountedLoop) (tree : Tree) (model : Model)
    (term collection declarator : Outline)
    (body : Option Outline) (name : String) : Prop where
  /-- Where the loop is. -/
  isLoop : loop.ref = term.ref
  /-- Where the collection is. -/
  isCollection : loop.collection = collection.ref
  /-- Where the body is. -/
  isBody : loop.body = refOf body
  /-- What the loop is made of. -/
  form : ∃ declaration condition steps type left bound,
    term.kind = .forLoop (some declaration) [] (some condition) steps body ∧
    declaration.kind = .localDecl type [declarator] ∧
      condition.kind = .binary .lt left (some bound) ∧ IsSizeOf (some collection) bound
  /-- What the counter is called. -/
  declares : ∃ value, declarator.kind = .declarator name value
  /-- What the counter is. -/
  counter : model.declaredSymbol declarator.ref = some loop.counter
  /-- The collection is a stable path. -/
  isStable : tree.isStablePath collection.ref = true
  /-- The collection and the body stand apart. -/
  apart : tree.StandsAll (body.toList ++ [collection])
  /-- They lie within the loop. -/
  inside : (body.toList ++ [collection]).flatMap refs ⊆ term.innerRefs

namespace Tree

open Term

variable {tree : Tree} {term : Outline}

/-- What is found to be a declaration of one variable that starts from zero has a declarator. -/
theorem zeroDeclarator?_eq_some {declaration : Option Outline} {found : Ref}
    (shown : ∀ term ∈ declaration, term.All tree.Shows)
    (isFound : tree.zeroDeclarator? (refOf declaration) = some found) :
    ∃ term type declarator name value, declaration = some term ∧
    term.kind = .localDecl type [declarator] ∧
      declarator.kind = .declarator name value ∧ found = declarator.ref := by
  rw [zeroDeclarator?] at isFound
  split at isFound
  · rename_i type declarators isDeclaration
    obtain ⟨term, rfl⟩ := exists_of_kind isDeclaration (by simp)
    have shown := shown term rfl
    have depicts := shown.here.depicts
    rw [show tree.kind term.ref = _ from isDeclaration] at depicts
    obtain ⟨type, declarators, form, -, entries⟩ := depicts.localDecl
    split at isFound
    · rename_i single isSingle
      rw [isSingle] at entries
      obtain ⟨declarator, rfl, rfl⟩ := List.map_eq_singleton_iff.1 entries.symm
      split at isFound
      · rename_i name value isDeclarator
        have depicts := (shown.child
          (by simp [Term.children, form, parts] : declarator ∈ term.children)).here.depicts
        rw [isDeclarator] at depicts
        obtain ⟨value, formDeclarator, -⟩ := depicts.declarator
        split at isFound
        · exact ⟨term, type, declarator, name, value, rfl, form, formDeclarator,
            (Option.some.inj isFound).symm⟩
        · cases isFound
      · cases isFound
    · cases isFound
  · cases isFound

/-- What is found to be a counted loop is one. -/
theorem stands_of_countedLoop? {model : Model} {loop : CountedLoop} (stands : tree.Stands term)
    (found : tree.countedLoop? model term.ref = some loop) :
    ∃ collection declarator body name,
    loop.Stands tree model term collection declarator body name := by
  rw [countedLoop?] at found
  split at found
  · rename_i declaration initializers condition steps body isLoop
    have depicts := stands.shown.here.depicts
    rw [isLoop] at depicts
    obtain ⟨declaration, initial, condition, incrementors, body, form, rfl, entries, rfl, -, rfl⟩ :=
      depicts.forLoop
    obtain ⟨_, isEmpty, found⟩ := Option.bind_eq_some_iff.1 found
    obtain ⟨declared, isDeclared, found⟩ := Option.bind_eq_some_iff.1 found
    obtain ⟨counter, isCounter, found⟩ := Option.bind_eq_some_iff.1 found
    obtain ⟨-, -, found⟩ := Option.bind_eq_some_iff.1 found
    split at found
    · rename_i left right isTest
      obtain ⟨-, -, found⟩ := Option.bind_eq_some_iff.1 found
      obtain ⟨collection, isCollection, found⟩ := Option.bind_eq_some_iff.1 found
      obtain ⟨_, isStable, found⟩ := Option.bind_eq_some_iff.1 found
      obtain ⟨_, -, found⟩ := Option.bind_eq_some_iff.1 found
      obtain ⟨-, -, found⟩ := Option.bind_eq_some_iff.1 found
      obtain rfl := Option.some.inj found
      have none : initial = [] := by
        have isEmpty : initializers.length = 0 := beq_iff_eq.1 ((Option.guard_eq_some' _).1 isEmpty)
        simpa [items, Range.entries, isEmpty] using entries.symm
      subst none
      obtain ⟨declaration, type, declarator, name, value, rfl, formDeclaration,
        formDeclarator, rfl⟩ :=
        zeroDeclarator?_eq_some (fun inner inside => stands.shown.child (by
          simp [Term.children, form, parts, Option.mem_def.1 inside])) isDeclared
      obtain ⟨test, rfl⟩ := exists_of_kind isTest (by simp)
      have testChild : test ∈ term.children := by simp [Term.children, form, parts]
      have depicts := (stands.shown.child testChild).here.depicts
      rw [show tree.kind test.ref = _ from isTest] at depicts
      obtain ⟨left, right, formTest, rfl, rfl⟩ := depicts.binary
      obtain ⟨size, within, rfl, rfl, isSize⟩ := sizedCollection?_eq_some (fun size isSize => by
        obtain rfl := Option.mem_def.1 isSize
        exact (stands.shown.child testChild).child
          (by simp [Term.children, formTest, parts])) isCollection
      obtain ⟨collection, rfl⟩ : ∃ collection, within = some collection := by
        cases within with
        | none =>
          rw [refOf_none, isStablePath_none] at isStable
          exact absurd isStable.symm (Option.some_ne_none _)
        | some collection => exact ⟨collection, rfl⟩
      have sizeChild : size ∈ test.children := by simp [Term.children, formTest, parts]
      have collectionBelow := subterms_trans (child_mem_subterms sizeChild) isSize.mem_subterms
      have pair : ([test] ++ body.toList).Sublist term.children := by
        have children :
            term.children = [declaration] ++ ([test] ++ (incrementors ++ body.toList)) := by
          simp [Term.children, form, parts]
        rw [children]
        exact ((List.sublist_append_right _ _).append_left _).trans (List.sublist_append_right _ _)
      have standsPair := stands.children.1.sublist pair
      have inTest : [collection].flatMap refs ⊆ test.refs := by
        simpa using refs_subset collectionBelow
      have standsCollection :=
        (stands.subterm (child_mem_subterms testChild)).subterm collectionBelow
      have narrowed := standsPair.narrow (StandsAll.singleton_iff.2 standsCollection) inTest
      refine ⟨collection, declarator, body, name, rfl, rfl, rfl, ⟨declaration, test, incrementors,
        type, left, size, form, formDeclaration, formTest, isSize⟩, ⟨value, formDeclarator⟩,
        isCounter, ?_, narrowed.perm List.perm_append_comm, fun ref member => ?_⟩
      · exact (Option.guard_eq_some' _).1 isStable
      · have inPair : ref ∈ ([test] ++ body.toList).flatMap refs := by
          rw [List.flatMap_append, List.mem_append] at member ⊢
          exact member.symm.imp_left fun inside => by simpa using inTest inside
        exact (pair.flatMap refs).subset inPair
    · cases found
  · cases found

/-- The collection and the body of a loop over elements stand apart within the loop. -/
theorem stands_of_elementLoop? {loop : ElementLoop} (stands : tree.Stands term)
    (found : tree.elementLoop? term.ref = some loop) : ∃ collection body, loop.ref = term.ref ∧
      loop.collection = refOf collection ∧ loop.body = refOf body ∧
      tree.StandsAll (collection.toList ++ body.toList) ∧
      (collection.toList ++ body.toList).flatMap refs ⊆ term.innerRefs ∧
      ∃ type name, term.kind = .forEach type name collection body := by
  rw [elementLoop?] at found
  split at found
  · rename_i type name collection body isLoop
    obtain rfl := Option.some.inj found
    have depicts := stands.shown.here.depicts
    rw [isLoop] at depicts
    obtain ⟨type, collection, body, form, rfl, rfl, rfl⟩ := depicts.forEach
    have parts : (collection.toList ++ body.toList).Sublist term.children := by
      simp [Term.children, form, Term.parts]
    exact ⟨collection, body, rfl, rfl, rfl, stands.children.1.sublist parts,
      (parts.flatMap refs).subset, type, name, form⟩
  · cases found

end Tree

namespace CountedLoop

open Term Refactory.Tree

/-- A loop over the elements of a collection, which have a name and a type that is inferred. -/
def IsElementLoop (name : String) (collection : Outline) (body : Option Outline)
    (loop : Outline) : Prop :=
  ∃ place, loop.kind
    = .forEach (some (.node place (.typeRef "var" [] 0))) name (some collection) body

/-- A loop over elements is made of the collection and of the body. -/
theorem elementLoop_makes {tree : Tree} {collection : Outline} {body : Option Outline}
    (name : String)
    (span : Span) (stored : tree.Stored) (all : tree.StandsAll (body.toList ++ [collection])) :
    Makes
    (do Tree.alloc (.forEach (← Build.typeRef "var") name collection.ref (refOf body)) span) tree
      (body.toList ++ [collection]) fun result outputs =>
        ∃ loop, result = loop.ref ∧ outputs = [loop] ∧ IsElementLoop name collection body loop := by
  refine (Build.typeRef_makes stored "var").bind_among stored all (.refl _) ?_
  rintro _ _ after ⟨place, rfl, rfl⟩ stored all
  set type : Outline := .node place (.typeRef "var" [] 0)
  set form : Form Place := .forEach (some type) name (some collection) body
  have same : parts form = [type, collection] ++ body.toList := by simp [form, parts]
  have arranged : ([type] ++ (body.toList ++ [collection])).Perm (parts form) := by
    rw [same]
    exact (List.perm_append_singleton _ _).cons _
  have all := all.perm arranged
  have holdsType : after.Holds (.one type.ref) (.one (some type)) :=
    @StandsAll.holds _ _ (some type) all (by simp [same])
  have holdsCollection : after.Holds (.one collection.ref) (.one (some collection)) :=
    @StandsAll.holds _ _ (some collection) all (by simp [same])
  have holdsBody : after.Holds (.one (refOf body)) (.one body) := all.holds (by simp [same])
  have made :=
    @Build.alloc_makes after (.forEach type.ref name collection.ref (refOf body)) form span stored
      ⟨.cons holdsType (.cons holdsCollection (.cons holdsBody .nil)), rfl⟩ all
  refine (made.perm arranged.symm).mono fun _ _ isNode => ?_
  obtain ⟨_, rfl, rfl⟩ := isNode
  exact ⟨_, rfl, rfl, place, rfl⟩

/-- Converting a counted loop in a program gives a program with a loop over elements in its place,
where its body was made into another one. What the loop is made of is new but for nodes of the
collection and of the body. -/
theorem toElementLoop_isProgram {tree scratch : Tree} {whole term collection : Outline}
    {body body' : Option Outline} {loop : CountedLoop} (name : String)
    (program : tree.IsProgram whole)
    (within : term ∈ whole.subterms) (isLoop : loop.ref = term.ref)
    (isCollection : loop.collection = collection.ref)
    (all : tree.StandsAll (body.toList ++ [collection]))
    (below : (body.toList ++ [collection]).flatMap refs ⊆ term.innerRefs)
    (builds : Builds body.toList tree scratch body'.toList) :
    ∃ after converted, loop.toElementLoop name (refOf body') scratch = .ok ((), after) ∧
      tree.Places after whole term converted ∧ IsElementLoop name collection body' converted ∧
      ∀ ref ∈ converted.refs, tree.HasRef ref →
      ref ∈ (body.toList ++ [collection]).flatMap refs := by
  have both := builds.append all
  obtain ⟨_, _, made, makes, buildsLoop, new, rfl, rfl, isLoopNew⟩ :=
    elementLoop_makes name (scratch.span loop.ref)
      (builds.frame.stored program.stored) both.stands
  have reworks := (both.trans buildsLoop).reworks below
  have prepares := reworks.prepares program fun ref _ inside => by
    rw [refs_eq]
    exact .tail _ inside
  obtain ⟨after, put, isProgram, spares, -⟩ := prepares.put program within
  have unmoved : scratch.parent term.ref = tree.parent term.ref := by
    obtain ⟨number, stored, place⟩ := program.stands.hasRef (mem_refs.2 ⟨term, within, rfl⟩)
    rw [place]
    refine builds.frame.parents number stored fun isMoved => ?_
    refine ref_not_mem_innerRefs (program.stands.subterm within).once (below ?_)
    rw [place, List.flatMap_append]
    exact List.mem_append_left _ isMoved
  refine ⟨after, new, ?_, ⟨within, isProgram, spares⟩, isLoopNew, fun ref inside =>
    (both.trans buildsLoop).origin ref (by simpa using inside)⟩
  rw [toElementLoop, Change.get_bind, isLoop, unmoved, isCollection]
  rw [isLoop] at makes
  rw [← put, show made = (_ : Ref × Tree).2 from (congrArg Prod.snd makes).symm,
    show new.ref = (_ : Ref × Tree).1 from (congrArg Prod.fst makes).symm]
  rfl

end CountedLoop

namespace ElementLoop

open Term Refactory.Tree

/-- The declaration of a variable whose type is inferred. -/
def DeclaresVar (name : String) (value : Option Outline) (declaration : Outline) : Prop :=
  ∃ type declarator, declaration.kind = .localDecl (some type) [declarator] ∧
    type.kind = .typeRef "var" [] 0 ∧
    declarator.kind = .declarator name value

/-- A collection that is indexed where it stands is a stable path. -/
theorem isStablePath_of_access? {tree : Tree} {model : Model} {sizeMember : String}
    (loop : ElementLoop) (reads : loop.access? tree model = some (.inPlace, sizeMember)) :
    tree.isStablePath loop.collection = true := by
  rw [access?] at reads
  split at reads
  · by_contra unstable
    simp [unstable] at reads
  · split at reads <;> simp at reads

/-- What elements are read from, and the statement that declares it. -/
inductive Opens (collection : Option Outline) (name : String)
    (target : Outline) : Access → Option Outline → Prop
  /-- The collection where it stands. -/
  | inPlace (isTarget : collection = some target) : Opens collection name target .inPlace none
  /-- A variable that holds the collection. -/
  | «local» {declaration : Outline} (isName : target.kind = .ident name)
      (declares : DeclaresVar name collection declaration) :
      Opens collection name target .local (some declaration)
  /-- A variable that holds an array of the elements. -/
  | array {declaration value conversion : Outline} (isName : target.kind = .ident name)
      (declares : DeclaresVar name (some value) declaration)
      (isCall : value.kind = .invoke (some conversion) [])
      (isMember : conversion.kind = .member collection "ToArray" false) :
      Opens collection name target .array (some declaration)

/-- What declares a variable is a statement. -/
theorem Opens.isStatement {collection : Option Outline} {name : String}
    {target declaration : Outline} {access : Access}
    (opens : Opens collection name target access (some declaration)) :
    declaration.kind.isStatement := by
  cases opens with
  | «local» _ declares | array _ declares =>
    obtain ⟨_, _, isDeclaration, -⟩ := declares
    rw [isDeclaration]
    rfl

/-- What was made is what elements are read from. -/
def IsSource (collection : Option Outline) (access : Access) (name : String)
    (result : Ref × Option Ref)
    (outputs : List Outline) : Prop :=
  ∃ (target : Outline) (declaration : Option Outline), result
    = (target.ref, declaration.map Term.ref) ∧
    outputs = target :: declaration.toList ∧ Opens collection name target access declaration

section

variable {tree : Tree} {collection : Option Outline} {loop : ElementLoop}

/-- What the elements of a collection are read from is made of the collection, which must be there
if it is indexed in its place. -/
theorem source_makes {access : Access} (name : String)
    (isCollection : loop.collection = refOf collection)
    (real : access = .inPlace → collection.isSome) (stored : tree.Stored)
    (all : tree.StandsAll collection.toList) :
    Makes (loop.source access name) tree collection.toList (IsSource collection access name) := by
  -- A new variable holds a value.
  have declared {value : Option Outline} {tree : Tree} {access : Access} (stored : tree.Stored)
      (all : tree.StandsAll value.toList)
      (opens : ∀ target declaration, target.kind = .ident name →
        DeclaresVar name value declaration →
        Opens collection name target access (some declaration)) :
      Makes (do
        let declaration ← Build.localDecl "var" name (refOf value)
        return (← Build.ident name, some declaration)) tree value.toList
          (IsSource collection access name) := by
    refine (Build.localDecl_makes "var" name stored all).bind_whole stored all ?_
    rintro _ _ middle ⟨_, _, declaration, rfl, rfl⟩ stored all
    refine (Build.ident_makes stored name).bind_new stored all ?_
    rintro _ _ after ⟨place, rfl, rfl⟩ - stored all
    exact .pure all ⟨_, some (.node declaration _), rfl, rfl, opens _ _ rfl ⟨_, _, rfl, rfl, rfl⟩⟩
  cases access with
  | inPlace =>
    obtain ⟨target, rfl⟩ := Option.isSome_iff_exists.1 (real rfl)
    exact .pure all ⟨target, none, by rw [isCollection]; rfl, rfl, .inPlace rfl⟩
  | «local» =>
    rw [source, isCollection]
    exact declared stored all fun _ _ => .local
  | array =>
    rw [source, isCollection]
    refine (Build.member_makes "ToArray" false stored all).bind_whole stored all ?_
    rintro _ _ middle ⟨place, rfl, rfl⟩ stored all
    set conversion : Outline := .node place (.member collection "ToArray" false)
    refine (@Build.invoke_makes middle (some conversion) [] stored all).bind_whole stored all ?_
    rintro _ _ after ⟨arguments, areArguments, value, rfl, rfl⟩ stored all
    obtain rfl := List.forall₂_nil_left_iff.1 areArguments
    exact @declared (some (.node value (.invoke (some conversion) []))) after _ stored all
      fun _ _ isName declares => .array isName declares rfl rfl

/-- A loop that counts from zero up to the size of a collection. -/
structure IsCounted (target : Outline) (sizeMember counter : String) (body : Option Outline)
    (declarator loop : Outline) : Prop where
  /-- The parts of the loop. -/
  form : ∃ declaration condition step, loop.kind
    = .forLoop (some declaration) [] (some condition) [step] body ∧ (∃ place, declaration.kind
    = .localDecl (some (.node place (.typeRef "int" [] 0))) [declarator]) ∧
    (∃ tested size, condition.kind = .binary .lt (some tested) (some size) ∧
    tested.kind = .ident counter ∧ size.kind = .member (some target) sizeMember false) ∧
    ∃ stepped, step.kind = .unary .postInc (some stepped) ∧ stepped.kind = .ident counter
  /-- The counter starts from zero. -/
  declares : ∃ zero, declarator.kind = .declarator counter (some zero) ∧ zero.kind = .int 0

/-- A counted loop is made of what the elements are read from and of the body. -/
theorem counted_makes {target : Outline} {body : Option Outline} (sizeMember counter : String)
    (stored : tree.Stored) (all : tree.StandsAll (target :: body.toList)) :
    Makes (loop.counted target.ref sizeMember counter (refOf body)) tree (target :: body.toList)
      fun result outputs => ∃ loop declarator, result = loop.ref ∧ outputs = [loop] ∧
        IsCounted target sizeMember counter body declarator loop := by
  rw [counted]
  refine (Build.int_makes stored 0).bind_new stored all ?_
  rintro _ _ t1 ⟨zeroPlace, rfl, rfl⟩ - stored all
  refine (@Build.localDecl_makes t1 (some _) "int" counter stored
    (StandsAll.append_iff.1 all).1).bind_among
    stored all (.refl _) ?_
  rintro _ _ t2 ⟨typePlace, declaratorPlace, declarationPlace, rfl, rfl⟩ stored all
  set declarator : Outline :=
    .node declaratorPlace (.declarator counter (some (.node zeroPlace (.int 0))))
  set declaration : Outline :=
    .node declarationPlace (.localDecl (some (.node typePlace (.typeRef "int" [] 0))) [declarator])
  have front : t2.StandsAll ([target] ++ (declaration :: body.toList)) := all.perm (.swap _ _ _)
  refine (@Build.member_makes t2 (some target) sizeMember false stored
    (StandsAll.append_iff.1 front).1).bind_among
    stored all (.swap _ _ _) ?_
  rintro _ _ t3 ⟨sizePlace, rfl, rfl⟩ stored all
  set size : Outline := .node sizePlace (.member (some target) sizeMember false)
  refine (Build.ident_makes stored counter).bind_new stored all ?_
  rintro _ _ t4 ⟨testedPlace, rfl, rfl⟩ - stored all
  set tested : Outline := .node testedPlace (.ident counter)
  have pair : t4.StandsAll ([tested, size] ++ (declaration :: body.toList)) := all
  refine (@Build.binary_makes t4 (some tested) (some size) .lt stored
    (StandsAll.append_iff.1 pair).1).bind_among
    stored all (.refl _) ?_
  rintro _ _ t5 ⟨conditionPlace, rfl, rfl⟩ stored all
  set condition : Outline := .node conditionPlace (.binary .lt (some tested) (some size))
  refine (Build.ident_makes stored counter).bind_new stored all ?_
  rintro _ _ t6 ⟨steppedPlace, rfl, rfl⟩ - stored all
  set stepped : Outline := .node steppedPlace (.ident counter)
  refine (@Build.unary_makes t6 (some stepped) .postInc stored
    (StandsAll.append_iff.1 all).1).bind_among
    stored all (.refl _) ?_
  rintro _ _ t7 ⟨stepPlace, rfl, rfl⟩ stored all
  set step : Outline := .node stepPlace (.unary .postInc (some stepped))
  set form : Form Place := .forLoop (some declaration) [] (some condition) [step] body
  have same : parts form = [declaration, condition, step] ++ body.toList := by simp [form, parts]
  have arranged :
      (([step, condition, declaration] : List Outline) ++ body.toList).Perm (parts form) := by
    rw [same]
    exact (List.reverse_perm [declaration, condition, step]).append_right _
  have all := all.perm arranged
  have made := @Build.allocWith_makes t7
    (.forLoop declaration.ref .empty condition.ref · (refOf body)) form [step]
    (·.span loop.ref) stored all (by simp [same]) fun range after holds all => by
      have holdsDeclaration : after.Holds (.one declaration.ref) (.one (some declaration)) :=
        @StandsAll.holds _ _ (some declaration) all (by simp [same])
      have holdsCondition : after.Holds (.one condition.ref) (.one (some condition)) :=
        @StandsAll.holds _ _ (some condition) all (by simp [same])
      have holdsBody : after.Holds (.one (refOf body)) (.one body) :=
        all.holds (same ▸ List.subset_append_right _ _)
      have holdsNothing : after.Holds (.many .empty) (.many []) :=
        ⟨by simp [items, Range.empty], Nat.zero_le _⟩
      exact ⟨.cons holdsDeclaration
        (.cons holdsNothing (.cons holdsCondition (.cons holds (.cons holdsBody .nil)))), rfl⟩
  refine (made.perm arranged.symm).mono fun _ _ isNode => ?_
  obtain ⟨place, rfl, rfl⟩ := isNode
  exact ⟨_, declarator, rfl, rfl, ⟨declaration, condition, step, rfl, ⟨typePlace, rfl⟩,
    ⟨tested, size, rfl, rfl, rfl⟩, stepped, rfl, rfl⟩, _, rfl, rfl⟩

/-- The steps of converting a loop over elements after it was made sure what the elements are read
from: the body is indexed, a counted loop is made of it and put in the place of the loop. -/
structure Counts (loop : ElementLoop) (model : Model) (element : SymbolId)
    (sizeMember counter : String)
    (tree opened : Tree) (whole term target : Outline) (body : Option Outline) (converted : Outline)
    (placed : Tree) : Prop where
  /-- The elements are put in the place of the loop variable, and the loop is made and put into the
  program. -/
  runs : ∃ indexed counted : Tree, ∃ made : Ref,
    indexElements model element target.ref counter (refOf body) opened = (made, indexed) ∧
    loop.counted target.ref sizeMember counter made indexed = (converted.ref, counted) ∧
    Change.put (tree.parent term.ref) term.ref converted.ref counted = .ok ((), placed)
  /-- The counted loop is in the place of the loop. -/
  program : placed.IsProgram (Term.swap term.ref converted whole)
  /-- All else is as it was. -/
  spares : tree.Spares placed whole term
  /-- The body stood where the elements were looked for. -/
  stands : opened.StandsAll body.toList
  /-- The counted loop has the indexed body. -/
  form : ∃ value moved declarator, IsCounted target sizeMember counter
    (body.map (replacing ((Referent.symbol element).isAt opened model) value moved))
    declarator converted ∧ ∀ inner ∈ body,
    ArePut ((Referent.symbol element).isAt opened model) (IsElementOf target counter) value inner

/-- What is left of what was made besides stands apart from the program. -/
theorem exists_counts {opened : Tree} {whole term target : Outline}
    {body declaration : Option Outline} (model : Model)
    (element : SymbolId) (sizeMember counter : String) (program : tree.IsProgram whole)
    (within : term ∈ whole.subterms) (all : tree.StandsAll (collection.toList ++ body.toList))
    (below : (collection.toList ++ body.toList).flatMap refs ⊆ term.innerRefs)
    (opens : Builds collection.toList tree opened (target :: declaration.toList)) :
    ∃ converted placed, loop.Counts model element sizeMember counter tree opened whole term target
    body converted placed ∧ ∀ other ∈ declaration, placed.Stands other ∧
        other.refs.Disjoint (Term.swap term.ref converted whole).refs := by
  have both := opens.append all
  have storedOpened := opens.frame.stored program.stored
  have arranged : (target :: declaration.toList ++ body.toList).Perm
      (body.toList ++ (target :: declaration.toList)) := List.perm_append_comm
  have standsOpened := both.stands.perm arranged
  obtain ⟨_, _, indexed, madeBody, indexes, value, moved, rfl, rfl, arePut⟩ :=
    @indexElements_makes opened model body element target counter storedOpened
      (StandsAll.append_iff.1 standsOpened).1 (both.stands.each target (by simp))
  set body' :=
    body.map (replacing ((Referent.symbol element).isAt opened model) value moved) with isBody
  have both := ((both.perm arranged).next indexes).perm
    (List.perm_middle.trans (by simp) : (body'.toList ++ target :: declaration.toList).Perm
      ((target :: body'.toList) ++ declaration.toList))
  obtain ⟨_, _, counted, madeLoop, counts, converted, declarator, rfl, rfl, isCounted⟩ :=
    @counted_makes indexed loop target body' sizeMember counter (both.frame.stored program.stored)
      (StandsAll.append_iff.1 both.stands).1
  have both : Builds _ tree counted (converted :: declaration.toList) := both.next counts
  have meets : ∀ ref ∈ whole.refs, ref ∈ term.innerRefs → ref ∈ term.refs := fun ref _ inside => by
    rw [refs_eq]
    exact .tail _ inside
  have standsNew := StandsAll.cons_iff.1 both.stands
  have prepares :=
    ((both.reworks below).sublist ((List.nil_sublist _).cons_cons converted)).prepares program meets
  obtain ⟨placed, put, program', spares, others⟩ := prepares.put program within
  refine ⟨converted, placed, ⟨⟨indexed, counted, _, madeBody, madeLoop, put⟩, program', spares,
    (StandsAll.append_iff.1 standsOpened).1, value, moved, declarator, isCounted, arePut⟩, ?_⟩
  rintro other ⟨rfl⟩
  have inTerm {ref : Ref} (inside : ref ∈ other.refs)
      (inWhole : ref ∈ whole.refs) : ref ∈ term.innerRefs :=
    below (both.origin ref (by simp [inside]) (program.stands.hasRef inWhole))
  have apart : other.refs.Disjoint converted.refs := fun ref here there =>
    standsNew.2.2 there (by simpa using here)
  refine ⟨others other (standsNew.2.1.each other (by simp))
    (fun ref inside inWhole => inTerm inside inWhole)
    (by simpa using apart), fun ref inside inWhole => ?_⟩
  rcases (mem_refs_swap program.stands.once within).1 inWhole with ⟨inWhole, other⟩ | inConverted
  · exact other (refs_eq term ▸ .tail _ (inTerm inside inWhole))
  · exact apart inside inConverted

/-- A loop whose collection can be indexed where it stands is converted into a counted loop over the
collection. -/
theorem toCountedLoop_inPlace {whole term target : Outline} {body : Option Outline} (model : Model)
    (element : SymbolId) (sizeMember name counter : String) (program : tree.IsProgram whole)
    (within : term ∈ whole.subterms) (isLoop : loop.ref = term.ref)
    (isCollection : loop.collection = target.ref) (isBody : loop.body = refOf body)
    (all : tree.StandsAll (target :: body.toList))
    (below : (target :: body.toList).flatMap refs ⊆ term.innerRefs) :
    ∃ converted placed, loop.toCountedLoop model element .inPlace sizeMember name counter tree =
    .ok ((), placed) ∧ loop.Counts model element sizeMember counter tree tree whole term target body
      converted placed := by
  obtain ⟨converted, placed, counts, -⟩ :=
    @exists_counts tree (some target) loop tree whole term target body none model element
    sizeMember counter program within all below
    (.refl (StandsAll.append_iff.1 (all : tree.StandsAll ([target] ++ _))).1)
  refine ⟨converted, placed, ?_, counts⟩
  obtain ⟨indexed, counted, made, madeBody, madeLoop, put⟩ := counts.runs
  have source : loop.source .inPlace name tree = ((target.ref, none), tree) := by
    rw [source, isCollection]; rfl
  rw [toCountedLoop, Change.get_bind, Change.lift_bind, source]
  dsimp only
  rw [isBody, isLoop, Change.lift_bind, madeBody, Change.lift_bind, madeLoop, Change.bind_of_ok put]
  rfl

/-- A loop over elements in a program is converted into a counted loop that comes in its place, with
the declaration of what the elements are read from in front of it where there is one. -/
def PutsCounted (loop : ElementLoop) (model : Model) (element : SymbolId) (access : Access)
    (sizeMember name counter : String)
    (before after : Tree) (whole term : Outline) (collection body : Option Outline)
    (result : Outline) : Prop :=
  ∃ opened target declaration converted placed, Opens collection name target access declaration ∧
    loop.Counts model element sizeMember
    counter before opened whole term target body converted placed ∧ converted.kind.isStatement ∧
    (declaration = none ∧ after = placed ∧ result = Term.swap term.ref converted whole ∨
      ∃ statement : Outline, declaration = some statement ∧
        Becomes (Term.swap term.ref converted whole) converted ([statement] ++ [converted]) result ∧
        placed.Spares after (Term.swap term.ref converted whole) converted)

/-- Converting a loop over elements in a program gives a program with a counted loop. -/
theorem toCountedLoop_isProgram {whole term : Outline} {body : Option Outline} {access : Access}
    (model : Model)
    (element : SymbolId) (sizeMember name counter : String) (program : tree.IsProgram whole)
    (within : term ∈ whole.subterms) (isLoop : loop.ref = term.ref)
    (isCollection : loop.collection = refOf collection) (isBody : loop.body = refOf body)
    (real : access = .inPlace → collection.isSome)
    (all : tree.StandsAll (collection.toList ++ body.toList))
    (below : (collection.toList ++ body.toList).flatMap refs ⊆ term.innerRefs) :
    ∃ after result, loop.toCountedLoop model element access sizeMember name counter tree =
    .ok ((), after) ∧ after.IsProgram result ∧ loop.PutsCounted model element access sizeMember name
      counter tree after whole term collection body result := by
  obtain ⟨_, _, opened, source, builds, target, declaration, rfl, rfl, opens⟩ :=
    source_makes name isCollection real program.stored (StandsAll.append_iff.1 all).1
  obtain ⟨converted, placed, counts, apart⟩ :=
    exists_counts model element sizeMember counter program within all below builds
  obtain ⟨indexed, counted, made, madeBody, madeLoop, put⟩ := counts.runs
  rw [toCountedLoop, Change.get_bind, Change.lift_bind, source]
  dsimp only
  rw [isBody, isLoop, Change.lift_bind, madeBody, Change.lift_bind, madeLoop, Change.bind_of_ok put]
  have isStatement : converted.kind.isStatement := by
    obtain ⟨_, _, _, ⟨⟨_, _, _, isLoop, -⟩, -⟩, -⟩ := counts.form
    rw [isLoop]
    rfl
  cases declaration with
  | none => exact ⟨placed, _, rfl, counts.program, opened, target, none, converted, placed, opens,
    counts, isStatement, .inl ⟨rfl, rfl, rfl⟩⟩
  | some declaration =>
    obtain ⟨standsDeclaration, outside⟩ := apart declaration rfl
    obtain ⟨after, result, putBefore, isProgram, becomes, sparesLoop⟩ := counts.program.putBefore
      (mem_subterms_swap program.stands.once within) (StandsAll.singleton_iff.2 standsDeclaration)
      (by simpa using outside)
    exact ⟨after, result, putBefore, isProgram, opened, target, some declaration, converted, placed,
      opens, counts, isStatement, .inr ⟨declaration, rfl, becomes, sparesLoop⟩⟩

end

end ElementLoop

namespace Context

open Term Refactory.Tree

/-- The loop that converting a counted loop at a node converts: the innermost one around the node
without a hazard. -/
def convertedLoop? (context : Context) (ref : Ref) : Option CountedLoop :=
  ((context.tree.lineage ref).filterMap (context.tree.countedLoop? context.model)).find? fun loop =>
    (loop.hazard? context.tree context.model).isNone

/-- The first loop without a hazard is the loop that is converted. -/
theorem firstSafe_find (context : Context) (loops : List CountedLoop) :
    Attempt.Gives (context.firstSafe loops)
      (· = loops.find? fun loop => (loop.hazard? context.tree context.model).isNone) := by
  induction loops with
  | nil => exact .pure rfl
  | cons loop loops ih =>
    rw [firstSafe, List.find?_cons]
    split
    · rename_i safe
      exact .pure (by simp [safe])
    · rename_i hazard unsafe'
      refine (Attempt.note_gives _).bind fun _ _ => ih.mono fun found isFound => ?_
      simpa [unsafe'] using isFound

variable {context : Context} {whole : Outline} {ref : Ref} {loop : CountedLoop}

/-- The loop that is converted stands in the program and has no hazard. -/
theorem stands_of_convertedLoop? (program : context.tree.IsProgram whole)
    (member : ref ∈ whole.refs) (found : context.convertedLoop? ref = some loop) :
    loop.hazard? context.tree context.model = none ∧
      ∃ term ∈ whole.subterms, ∃ collection declarator body counter,
        loop.Stands context.tree context.model term collection declarator body counter := by
  rw [convertedLoop?] at found
  have safe := List.find?_some found
  obtain ⟨target, isTarget, isLoop⟩ := List.mem_filterMap.1 (List.mem_of_find?_eq_some found)
  obtain ⟨term, within, rfl⟩ := mem_refs.1 (program.lineage_subset member isTarget)
  exact ⟨Option.isNone_iff_eq_none.1 safe, term, within,
    stands_of_countedLoop? (program.stands.subterm within) isLoop⟩

/-- Converting a counted loop around a node of a program puts a loop over elements in the place of
it, where it is offered. -/
theorem forToForEach_places (program : context.tree.IsProgram whole) (member : ref ∈ whole.refs) :
    Attempt.Gives (context.forToForEach ref) (Offers fun result => ∃ loop term converted,
      context.convertedLoop? ref = some loop ∧ loop.ref = term.ref ∧ converted.kind.isStatement ∧
      context.tree.Places result whole term converted) := by
  rw [forToForEach]
  refine (context.firstSafe_find _).bind fun found isFound => ?_
  split
  · exact Attempt.none_offers
  · rename_i loop
    obtain ⟨-, term, within, collection, declarator, body, counter, stands⟩ :=
      stands_of_convertedLoop? program member isFound.symm
    obtain ⟨_, _, scratch, named, builds, value, moved, same, rfl, -⟩ :=
      @nameElements_makes context.tree context.model body loop.counter collection
        ((context.namesAt loop.ref).pick (loop.suggestedNames context.tree context.model)
          context.settings.iteration).1 program.stored (StandsAll.append_iff.1 stands.apart).1
        (stands.apart.each collection (by simp))
    rw [← stands.isCollection] at named
    refine (Attempt.pickName_gives _ _ _).bind fun picked isPicked => ?_
    obtain rfl := isPicked
    have ran :
        (nameElements context.model loop.counter loop.collection _ loop.body).run context.tree
        = ((_, _), scratch) := stands.isBody ▸ named
    dsimp only
    rw [ran]
    refine (Attempt.note_gives _).bind fun _ _ => ?_
    rw [same]
    obtain ⟨after, converted, changed, places, ⟨_, isLoop⟩, -⟩ :=
      loop.toElementLoop_isProgram _ program within stands.isLoop
      stands.isCollection stands.apart stands.inside builds
    exact offer_offers ⟨after, changed, loop, term, converted, isFound.symm,
      stands.isLoop, by rw [isLoop]; rfl, places⟩

/-- Converting a counted loop around a node of a program gives a program where it is offered. -/
theorem forToForEach_gives (program : context.tree.IsProgram whole) (member : ref ∈ whole.refs) :
    Attempt.Gives (context.forToForEach ref) OffersProgram := by
  refine (forToForEach_places program member).mono fun offered offers action isOffered => ?_
  obtain ⟨_, _, _, -, -, -, places⟩ := offers action isOffered
  exact ⟨_, places.program⟩

/-- The name of a variable that holds a collection is picked, if there is such a variable. -/
theorem accessName_gives (context : Context) (scope : NameScope) (access : Access) :
    Attempt.Gives (context.accessName scope access) fun named =>
      access = .inPlace ∨ ∃ ladder ∈ [context.settings.items, context.settings.array],
      named = scope.pick [] ladder := by
  cases access with
  | inPlace => exact .pure (.inl rfl)
  | «local» =>
    exact (Attempt.pickName_gives _ _ _).mono fun _ isPicked => .inr ⟨_, .head _, isPicked⟩
  | array =>
    exact (Attempt.pickName_gives _ _ _).mono fun _ isPicked =>
      .inr ⟨_, .tail _ (.head _), isPicked⟩

end Context

open Term Refactory.Tree in
/-- How a loop over elements is to be converted: from where its elements are read and what the new
variables are called. -/
structure ElementLoop.Plans (loop : ElementLoop) (context : Context) (term : Outline)
    (collection body : Option Outline)
    (access : Access) (sizeMember name counter : String) : Prop where
  /-- Where the loop is. -/
  isLoop : loop.ref = term.ref
  /-- Where the collection is. -/
  isCollection : loop.collection = refOf collection
  /-- What the loop is made of. -/
  form : ∃ type element, term.kind = .forEach type element collection body
  /-- How the elements are read. -/
  reads : loop.access? context.tree context.model = some (access, sizeMember)
  /-- A variable that holds a collection has a name that was picked. -/
  isName : access = .inPlace ∨
    ∃ scope : NameScope, ∃ ladder ∈ [context.settings.items, context.settings.array],
    name = (scope.pick [] ladder).1
  /-- So has the counter. -/
  isCounter : ∃ scope : NameScope, counter = (scope.pick [] context.settings.counter).1

namespace Context

open Term Refactory.Tree

variable {context : Context} {whole : Outline} {ref : Ref}

/-- Converting a loop over elements around a node of a program puts a counted loop in the place of
it, where it is offered. -/
theorem forEachToFor_puts (program : context.tree.IsProgram whole) (member : ref ∈ whole.refs) :
    Attempt.Gives (context.forEachToFor ref) (Offers fun result => ∃ loop, ∃ term ∈ whole.subterms,
      ∃ collection body element access sizeMember name counter changed,
      (context.tree.lineage ref).findSome? context.tree.elementLoop? = some loop ∧
      loop.Plans context term collection body access sizeMember name counter ∧
        result.IsProgram changed ∧ loop.PutsCounted context.model element access sizeMember name
        counter context.tree result whole term collection body changed) := by
  rw [forEachToFor]
  dsimp only
  split
  · exact Attempt.none_offers
  · rename_i loop element found
    obtain ⟨loop, isLoop, found⟩ := Option.bind_eq_some_iff.1 found
    obtain ⟨element, -, same⟩ := Option.bind_eq_some_iff.1 found
    obtain ⟨rfl, rfl⟩ := Prod.mk.inj (Option.some.inj same)
    obtain ⟨target, inLineage, isElementLoop⟩ := List.exists_of_findSome?_eq_some isLoop
    obtain ⟨term, within, rfl⟩ := mem_refs.1 (program.lineage_subset member inLineage)
    obtain ⟨collection, body, isTerm, isCollection, isBody, all, below, form⟩ :=
      stands_of_elementLoop? (program.stands.subterm within) isElementLoop
    split
    · exact Attempt.refuse_offers _
    · exact Attempt.refuse_offers _
    · rename_i access sizeMember _ isAccess
      have real : access = .inPlace → collection.isSome := by
        rintro rfl
        have stable := isCollection ▸ loop.isStablePath_of_access? isAccess
        cases collection with
        | none => simp [isStablePath_none] at stable
        | some collection => rfl
      refine (context.accessName_gives _ _).bind fun named isNamed => ?_
      obtain ⟨name, scope⟩ := named
      refine (Attempt.pickName_gives _ _ _).bind fun picked isPicked => ?_
      obtain ⟨counter, names⟩ := picked
      obtain ⟨after, changed, converts, isProgram, puts⟩ :=
        loop.toCountedLoop_isProgram context.model element sizeMember
        name counter program within isTerm isCollection isBody real all below
      refine offer_offers ⟨after, converts, loop, term, within, collection, body, element, access,
        sizeMember, name, counter,
        changed, isLoop, ⟨isTerm, isCollection, form, isAccess, ?_, scope,
          congrArg Prod.fst isPicked⟩, isProgram, puts⟩
      exact isNamed.imp_right fun ⟨ladder, among, isPicked⟩ =>
        ⟨_, ladder, among, congrArg Prod.fst isPicked⟩

/-- Converting a loop over elements around a node of a program gives a program where it is
offered. -/
theorem forEachToFor_gives (program : context.tree.IsProgram whole) (member : ref ∈ whole.refs) :
    Attempt.Gives (context.forEachToFor ref) OffersProgram := by
  refine (forEachToFor_puts program member).mono fun offered offers action isOffered => ?_
  obtain ⟨_, _, -, _, _, _, _, _, _, _, changed, -, -, isProgram, -⟩ := offers action isOffered
  exact ⟨changed, isProgram⟩

end Context

end Refactory
