import TypeStub.Proofs.Ensures
import TypeStub.Proofs.Live.Declare

namespace TypeStub.Live

open Declare

def classStatement? : Stmt → Option (Text × Int32)
  | .classDef place name _ _ => some (name, place.line)
  | _ => none

-- The names and the lines of the class statements at the top level of a tree.
def classStatements (body : List Stmt) : List (Text × Int32) := body.filterMap classStatement?

theorem ensures_className (line : Int32) (name : Text) (args : List ClassArg)
    (contents : Build ClassScan) :
    Ensures (fun _ => True) (classOf line name args contents) fun c => c.name = name :=
  .bind .any fun _ _ => .bind .any fun _ _ => .bind .any fun _ _ => .pure rfl

-- A statement that has no body of its own.
def isSimple : Stmt → Bool
  | .conditional _ _ _ _ _ | .classDef _ _ _ _ | .definition _ _ => false
  | _ => true

-- An item that is neither a class nor a definition.
def IsPlain : Item → Prop
  | .classDef _ _ | .definition _ => False
  | _ => True

theorem IsPlain.picks_none {item : Item} (h : IsPlain item) :
    item.classLine? = none ∧ item.class? = none ∧ item.definition? = none := by
  cases item <;> first | exact ⟨rfl, rfl, rfl⟩ | exact h.elim

theorem ensures_moduleAssignment_plain (line : Int32) (target : Text) (assigned : Assigned) :
    Ensures (fun _ => True) (moduleAssignment line target assigned) IsPlain := by
  refine .bind .any fun declared _ => ?_
  cases declared with
  | constant type => exact .pure trivial
  | synonym value => exact .bind .any fun _ _ => .pure trivial

theorem ensures_importedMember_plain (module : Text) (imported : ImportedName) :
    Ensures (fun _ => True) (importedMember module imported) fun item =>
      ∀ i ∈ item, IsPlain i := by
  refine .bind .any fun _ _ => .ite (fun _ => .pure (by simp)) fun _ => .pure ?_
  simp [IsPlain]

theorem ensures_typeVariable_plain (line : Int32) (name declaredName : Text)
    (constraints : List Expr) :
    Ensures (fun _ => True) (typeVariable line name declaredName constraints) IsPlain :=
  .ite (fun _ => .bind .any fun _ _ => .bind .any fun _ _ => .pure trivial) fun _ =>
    .bind .any fun _ _ => .pure trivial

theorem ensures_plain (liveness : Liveness) (path : Path) : ∀ {statement : Stmt},
    isSimple statement = true →
    Ensures (fun _ => True) (moduleStatement liveness path statement) fun items =>
      ∀ item ∈ items, IsPlain item
  | .assign place target assigned, _ => by
      rw [moduleStatement]
      exact .bind (ensures_moduleAssignment_plain _ _ _) fun item hi => .pure (by simpa using hi)
  | .typeVar _ _ _ _ _, _ => by
      rw [moduleStatement]
      exact .bind (ensures_typeVariable_plain _ _ _ _) fun item hi => .pure (by simpa using hi)
  | .importModules _ _, _ => by
      rw [moduleStatement]
      exact .ite (fun _ => .bind .any fun _ _ => .pure (by simp)) fun _ => .pure (by simp)
  | .importFrom _ module imported, _ => by
      rw [moduleStatement]
      refine .bind (.mapM fun n _ => ensures_importedMember_plain module n) fun items hi => ?_
      refine .pure fun item hm => ?_
      obtain ⟨found, hin, rfl⟩ := List.mem_filterMap.mp hm
      exact hi _ hin item rfl
  | .importAll _ _, _ => by
      rw [moduleStatement]
      exact .pure (by simp)

mutual

theorem ensures_classLines_statement {target : Target} {liveness : Liveness} :
    ∀ {path : Path} {statement : Stmt},
      Follows target liveness (reachedStmt target path statement) →
      Ensures (fun _ => True) (moduleStatement liveness path statement) fun items =>
        items.filterMap Item.classLine? = classStatements (flattenStmt target statement)
  | path, .conditional _ _ condition thenBody elseBody, h => by
      obtain ⟨hlive, hthen, helse⟩ := h.branch
      rw [moduleStatement, flattenStmt, hlive]
      cases hs : selects target condition with
      | true => exact ensures_classLines_body (hthen hs)
      | false => exact ensures_classLines_body (helse hs)
  | path, .classDef place name args body, h => by
      rw [moduleStatement]
      refine .bind (ensures_className place.line name args _) fun c hc => .pure ?_
      simp [Item.classLine?, classStatements, flattenStmt, classStatement?, hc]
  | path, .definition _ _, _ => by
      rw [moduleStatement]
      exact .bind .any fun _ _ => .pure rfl
  | path, .assign _ _ _, _ | path, .typeVar _ _ _ _ _, _ | path, .importModules _ _, _
  | path, .importFrom _ _ _, _ | path, .importAll _ _, _ =>
      (ensures_plain liveness path rfl).mono fun _ hi =>
        List.filterMap_eq_nil_iff.mpr fun item hm => (hi item hm).picks_none.1

-- The class items of a body are those of its live class statements.
theorem ensures_classLines_body {target : Target} {liveness : Liveness} :
    ∀ {path : Path} {position : Nat} {body : List Stmt},
      Follows target liveness (reached target path position body) →
      Ensures (fun _ => True) (moduleBody liveness path position body) fun items =>
        items.filterMap Item.classLine? = classStatements (flatten target body)
  | _, _, [], _ => .pure rfl
  | path, position, statement :: rest, h => by
      rw [reached] at h
      rw [moduleBody, flatten]
      refine .bind (ensures_classLines_statement h.append.1) fun items hi => ?_
      refine .bind (ensures_classLines_body h.append.2) fun more hm => .pure ?_
      rw [List.filterMap_append, hi, hm, classStatements, classStatements, classStatements,
        List.filterMap_append]

end

end TypeStub.Live
