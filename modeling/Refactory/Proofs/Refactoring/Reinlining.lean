import Refactory.Proofs.Model.Visits
import Refactory.Proofs.Refactoring.Order

/-!
# Inlining what was introduced

Temporaries that were introduced for the calls of a chain can be inlined again, and the statement
comes back (`Term.Introduces.inlines`). The value of the first one goes into the next declaration,
which declares then what it would have declared without the first one; so the induction is on the
temporaries, with a statement that was never without the value of the first. What is written anew
besides are the uses and the declarators (`Term.Introduces.cases_of_ident`,
`Term.Introduces.cases_of_declares`).
-/
namespace Refactory

namespace Term

open Refactory.Tree

namespace Introduced

/-- The temporary as one that is inlined. -/
def link (temporary : Introduced) : Link :=
    ⟨temporary.declaration.ref, temporary.value.ref, temporary.use.ref⟩

/-- The value of a temporary is evaluated first in the declaration. -/
theorem first_value (temporary : Introduced) : First temporary.value temporary.declaration := by
  have quiet : effects temporary.type = [] := (silent_of_typeRef temporary.isType).effects
  have split : temporary.declaration.children = [temporary.type] ++ temporary.declarator :: [] := by
    simp [Term.children, temporary.isDeclaration, parts]
  have splitDeclarator : temporary.declarator.children = [] ++ temporary.value :: [] := by
    simp [Term.children, temporary.isDeclarator, parts]
  refine .trans (.child splitDeclarator (by simp) ?_) (.child split (by simpa using quiet) ?_)
  · rw [temporary.isDeclarator]
    rfl
  · rw [temporary.isDeclaration]
    rfl

/-- A declaration of a temporary has a type and a declarator beside the value. -/
theorem cases_of_mem_declaration (temporary : Introduced) {part : Outline}
    (inside : part ∈ temporary.declaration.subterms) :
    part = temporary.declaration ∨ part = temporary.type ∨ part = temporary.declarator ∨
    part ∈ temporary.value.subterms := by
  have type : temporary.type.subterms = [temporary.type] := by
    rw [subterms_eq, Term.children, temporary.isType]
    rfl
  have declarator :
      temporary.declarator.subterms = temporary.declarator :: temporary.value.subterms := by
    rw [subterms_eq, Term.children, temporary.isDeclarator]
    simp [parts]
  rw [subterms_eq, Term.children, temporary.isDeclaration] at inside
  simpa [parts, type, declarator] using inside

end Introduced

section

variable {temporary : Introduced} {temporaries others : List Introduced}
  {call next statement last declaration use : Outline} {back : List Outline}

/-- What gave its place to a name comes back in the place of the name. -/
theorem swap_restores (once : statement.refs.Nodup) (within : call ∈ statement.subterms)
    (onceSwapped : (swap call.ref use statement).refs.Nodup) :
    swap use.ref call (swap call.ref use statement) = statement :=
  (swap_swap_self once within onceSwapped).trans (swap_eq_self once within)

/-- A name that comes in the place of what a call is made on is evaluated first where the call
is. -/
theorem MadeOn.first_use (made : MadeOn call next) (first : First next statement)
    (once : statement.refs.Nodup) (use : Outline) :
    MadeOn use (Term.swap call.ref use next) ∧
    First (Term.swap call.ref use next) (Term.swap call.ref use statement) := by
  have onceNext := once.sublist (refs_sublist first.mem_subterms)
  have used := @MadeOn.swap call next call use made onceNext (self_mem_subterms call)
  rw [swap_self] at used
  exact ⟨used,
    first.swap once made.first.mem_subterms (made.first.ref_ne onceNext (self_mem_subterms call))⟩

/-- Temporaries that were introduced can be inlined: after a declaration of what the first call of a
member is left of was made on, all declarations but the last one go into the next, and the statement
comes back. -/
theorem inlines_of_introduces {type : Option Outline} (declares : Declares type call declaration)
    (made : MadeOn call next) (first : First next statement) (once : statement.refs.Nodup)
    (onceSwapped : (swap call.ref use statement).refs.Nodup)
    (introduces : Introduces others (swap call.ref use next) (swap call.ref use statement) last)
    (onceAll : ((declaration :: (others.map (·.declaration) ++ last :: back)).flatMap refs).Nodup) :
    Inlines (fun _ => True)
    (⟨declaration.ref, call.ref, use.ref⟩ :: others.map (·.link)) declaration
      (others.map (·.declaration) ++ last :: back) statement back := by
  induction others generalizing call next declaration use type with
  | nil =>
    have restored := swap_restores once (made.first.trans first).mem_subterms onceSwapped
    obtain ⟨used, firstUsed⟩ := made.first_use first once use
    cases introduces
    refine .step declares (fun _ _ => trivial) (used.first.trans firstUsed).leads trivial ?_
    rw [restored]
    exact .done
  | cons temporary others ih =>
    have inNext := made.first.mem_subterms
    have restored := swap_restores once (made.first.trans first).mem_subterms onceSwapped
    obtain ⟨used, firstUsed⟩ := made.first_use first once use
    have inUsed := used.first.mem_subterms
    have onceNext := once.sublist (refs_sublist first.mem_subterms)
    have sameNext :=
      @ref_swap_of_ne call.ref use _ (made.first.ref_ne onceNext (self_mem_subterms call)).symm
    have restoredNext :=
      swap_restores onceNext inNext (onceSwapped.sublist (refs_sublist firstUsed.mem_subterms))
    cases introduces with
    | @step _ _ _ after _ _ isValue madeAfter firstAfter fresh rest =>
      have onceAfter := onceSwapped.sublist (refs_sublist firstAfter.mem_subterms)
      have onceDeclaration : temporary.declaration.refs.Nodup := by
        have inAll : [temporary.declaration].Sublist (declaration :: temporary.declaration ::
            (others.map (·.declaration) ++ last :: back)) :=
          .cons _ (.cons_cons _ (List.nil_sublist _))
        simpa using onceAll.sublist (List.Sublist.flatMap inAll refs)
      have firstUse : First use temporary.declaration :=
        used.first.trans (isValue ▸ temporary.first_value)
      -- With the value back in its place, the next temporary is one that is introduced for the
      -- statement as it was.
      have declaresNext := temporary.declares.swap onceDeclaration (isValue ▸ inUsed) call
      have madeNext := @MadeOn.swap _ _ use call madeAfter onceAfter inUsed
      have firstNext := @First.swap _ _ use call firstAfter onceSwapped
        (subterms_trans madeAfter.first.mem_subterms inUsed)
        (madeAfter.first.ref_ne onceAfter inUsed)
      rw [isValue, restoredNext] at declaresNext
      rw [restoredNext] at madeNext
      rw [restored] at firstNext
      have sameStatement :
          swap (swap call.ref use next).ref temporary.use (swap call.ref use statement)
          = swap next.ref temporary.use statement := by
        rw [sameNext]
        exact swap_swap_of_ref once first.mem_subterms inNext sameNext
      have sameAfter : swap (swap call.ref use next).ref temporary.use after
          = swap next.ref temporary.use (swap use.ref call after) := by
        rw [← sameNext]
        refine (swap_swap_of_ref onceAfter madeAfter.first.mem_subterms inUsed ?_).symm
        rw [restoredNext, sameNext]
      have onceRest := temporary.nodup_swap onceSwapped firstUsed.mem_subterms fresh
      rw [sameStatement] at onceRest rest
      rw [sameAfter] at rest
      have inlines := ih declaresNext madeNext firstNext onceRest rest
        (declares.nodup_inline firstUse.mem_subterms onceAll)
      rw [ref_swap_of_ne (firstUse.leads.ref_ne onceDeclaration).symm, ← sameNext,
        ← isValue] at inlines
      exact .step declares (fun _ _ => trivial) firstUse.leads trivial inlines

/-- Temporaries that were introduced can be inlined, and the statement comes back. -/
theorem Introduces.inlines (introduces : Introduces (temporary :: others) call statement last)
    (once : statement.refs.Nodup) (onceAll : ((temporary.declaration ::
      (others.map (·.declaration) ++ last :: back)).flatMap refs).Nodup) :
    Inlines (fun _ => True) ((temporary :: others).map (·.link)) temporary.declaration
      (others.map (·.declaration) ++ last :: back) statement back := by
  cases introduces with
  | step isValue made first fresh rest =>
    subst isValue
    exact inlines_of_introduces temporary.declares made first once
      (temporary.nodup_swap once (made.first.trans first).mem_subterms fresh) rest onceAll

end

section

variable {temporaries : List Introduced} {call statement last term part : Outline} {name : String}

/-- What is left of a statement has the form of the statement. -/
theorem Introduces.skeleton (introduces : Introduces temporaries call statement last)
    (once : statement.refs.Nodup) :
    last.kind.skeleton = statement.kind.skeleton := by
  induction introduces with
  | done => rfl
  | @step temporary others call next statement last isValue made first fresh rest ih =>
    have inside := made.first.trans first
    have differ := (inside.leads.ref_ne once).symm
    rw [ih (temporary.nodup_swap once inside.mem_subterms fresh), kind_swap_of_ne differ,
      skeleton_mapChildren]

/-- A name in the declarations of temporaries or in what is left of a statement is a name in the
statement or the use of a temporary. -/
theorem Introduces.cases_of_ident (introduces : Introduces temporaries call statement last)
    (once : statement.refs.Nodup)
    (among : term ∈ temporaries.map (·.declaration) ++ [last]) (inside : part ∈ term.subterms)
    (isName : part.kind = .ident name) :
    part ∈ statement.subterms ∨ ∃ temporary ∈ temporaries, part = temporary.use := by
  induction introduces with
  | done => exact .inl (List.mem_singleton.1 among ▸ inside)
  | @step temporary others call next statement last isValue made first fresh rest ih =>
    have within := (made.first.trans first).mem_subterms
    rw [List.map_cons, List.cons_append, List.mem_cons] at among
    rcases among with rfl | among
    · rcases temporary.cases_of_mem_declaration inside with rfl | rfl | rfl | inValue
      · rw [temporary.isDeclaration] at isName
        cases isName
      · rw [temporary.isType] at isName
        cases isName
      · rw [temporary.isDeclarator] at isName
        cases isName
      · exact .inl (subterms_trans within (isValue ▸ inValue))
    · rcases ih (temporary.nodup_swap once within fresh) among with swapped | ⟨other, member, same⟩
      · rcases ident_of_mem_subterms_swap once within swapped isName with isUse | ⟨inStatement, -⟩
        · rw [subterms_eq, Term.children, temporary.isUse] at isUse
          exact .inr ⟨temporary, .head _, List.mem_singleton.1 isUse⟩
        · exact .inl inStatement
      · exact .inr ⟨other, .tail _ member, same⟩

/-- What declares a name in the declarations of temporaries or in what is left of a statement
declares a name that the statement declares, or it is the declarator of a temporary. -/
theorem Introduces.cases_of_declares (introduces : Introduces temporaries call statement last)
    (once : statement.refs.Nodup)
    (among : term ∈ temporaries.map (·.declaration) ++ [last]) (inside : part ∈ term.subterms)
    (declares : part.kind.declaredName? = some name) :
    (∃ other ∈ statement.subterms, other.kind.declaredName? = some name) ∨
    ∃ temporary ∈ temporaries, part = temporary.declarator := by
  induction introduces with
  | done => exact .inl ⟨part, List.mem_singleton.1 among ▸ inside, declares⟩
  | @step temporary others call next statement last isValue made first fresh rest ih =>
    have within := (made.first.trans first).mem_subterms
    rw [List.map_cons, List.cons_append, List.mem_cons] at among
    rcases among with rfl | among
    · rcases temporary.cases_of_mem_declaration inside with rfl | rfl | rfl | inValue
      · rw [temporary.isDeclaration] at declares
        cases declares
      · rw [temporary.isType] at declares
        cases declares
      · exact .inr ⟨temporary, .head _, rfl⟩
      · exact .inl ⟨part, subterms_trans within (isValue ▸ inValue), declares⟩
    · rcases ih (temporary.nodup_swap once within fresh) among
        with ⟨other, swapped, declares⟩ | ⟨other, member, same⟩
      · rcases exists_of_mem_subterms_swap once within swapped
          with isUse | ⟨old, inStatement, outside, rfl⟩
        · rw [subterms_eq, Term.children, temporary.isUse] at isUse
          rw [List.mem_singleton.1 isUse, temporary.isUse] at declares
          cases declares
        · have differ : old.ref ≠ call.ref := fun same =>
            outside (subterm_unique once inStatement within same ▸ self_mem_subterms _)
          rw [kind_swap_of_ne differ,
            Kind.declaredName?_of_skeleton (skeleton_mapChildren _ _)] at declares
          exact .inl ⟨old, inStatement, declares⟩
      · exact .inr ⟨other, .tail _ member, same⟩

end

end Term

end Refactory
