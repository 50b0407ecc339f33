import TypeStub.Declare
import TypeStub.Proofs.Live.Prescan

namespace TypeStub.Live

open Declare

-- Decisions that are those the conditions of the reached conditionals make.
def Follows (target : Target) (liveness : Liveness) (branchings : List Branching) : Prop :=
  ∀ b ∈ branchings, liveness.selects b.path = selects target b.condition

theorem Follows.append {target : Target} {liveness : Liveness} {branchings more : List Branching}
    (h : Follows target liveness (branchings ++ more)) :
    Follows target liveness branchings ∧ Follows target liveness more := by
  simpa [Follows, or_imp, forall_and] using h

-- A conditional takes the branch that flattening puts in its place.
theorem Follows.branch {target : Target} {liveness : Liveness} {path : Path} {place : Place}
    {isElif : Bool} {condition : Expr} {thenBody elseBody : List Stmt}
    (h : Follows target liveness
      (reachedStmt target path (.conditional place isElif condition thenBody elseBody))) :
    liveness.selects path = selects target condition ∧
      (selects target condition = true →
        Follows target liveness (reached target path.thenBody 0 thenBody)) ∧
      (selects target condition = false →
        Follows target liveness (reached target path.elseBody 0 elseBody)) := by
  rw [reachedStmt] at h
  have hhead := h _ List.mem_cons_self
  have hrest := fun b hb => h b (List.mem_cons_of_mem _ hb)
  refine ⟨hhead, fun hs b hb => hrest b ?_, fun hs b hb => hrest b ?_⟩
  · simpa [hs] using hb
  · simpa [hs] using hb

theorem follows_decisions (target : Target) (path : Path) (position : Nat) (body : List Stmt) :
    Follows target (decisions target (reached target path position body))
      (reached target path position body) :=
  fun _ hb => selects_decisions (nodup_reached target path position body) hb

theorem follows_flatten (target : Target) (liveness : Liveness) (path : Path) (position : Nat)
    (body : List Stmt) :
    Follows target liveness (reached target path position (flatten target body)) := by
  simp [Follows, reached_flatten]

mutual

theorem classMember_flatten {target : Target} {liveness : Liveness} (classLine : Int32) :
    ∀ {path : Path} {statement : Stmt} (scan : ClassScan),
      Follows target liveness (reachedStmt target path statement) →
      classMember liveness classLine path scan statement =
        (flattenStmt target statement).foldlM (classStatement classLine) scan
  | path, .conditional _ _ condition thenBody elseBody, scan, h => by
      obtain ⟨hlive, hthen, helse⟩ := h.branch
      rw [classMember, flattenStmt, hlive]
      cases hs : selects target condition with
      | true => exact classBody_flatten classLine scan (hthen hs)
      | false => exact classBody_flatten classLine scan (helse hs)
  | _, .classDef _ _ _ _, scan, _ => (List.foldlM_cons ..).trans (bind_pure _) |>.symm
  | _, .definition _ _, scan, _ | _, .assign _ _ _, scan, _ | _, .typeVar _ _ _ _ _, scan, _
  | _, .importModules _ _, scan, _ | _, .importFrom _ _ _, scan, _
  | _, .importAll _ _, scan, _ => (bind_pure _).symm

-- A class body adds what its live statements add.
theorem classBody_flatten {target : Target} {liveness : Liveness} (classLine : Int32) :
    ∀ {path : Path} {position : Nat} {body : List Stmt} (scan : ClassScan),
      Follows target liveness (reached target path position body) →
      classBody liveness classLine path position scan body =
        (flatten target body).foldlM (classStatement classLine) scan
  | _, _, [], scan, _ => rfl
  | path, position, statement :: rest, scan, h => by
      rw [reached] at h
      rw [classBody, flatten, List.foldlM_append,
        classMember_flatten classLine scan h.append.1]
      exact bind_congr fun scan => classBody_flatten classLine scan h.append.2

end

-- Where no conditional is left, neither the node nor the decisions matter.
def liveItems (statement : Stmt) : Build (List Item) := moduleStatement [] [] statement

mutual

theorem moduleStatement_flatten {target : Target} {liveness : Liveness} :
    ∀ {path : Path} {statement : Stmt},
      Follows target liveness (reachedStmt target path statement) →
      moduleStatement liveness path statement =
        List.flatten <$> (flattenStmt target statement).mapM liveItems
  | path, .conditional _ _ condition thenBody elseBody, h => by
      obtain ⟨hlive, hthen, helse⟩ := h.branch
      rw [moduleStatement, flattenStmt, hlive]
      cases hs : selects target condition with
      | true => exact moduleBody_flatten (hthen hs)
      | false => exact moduleBody_flatten (helse hs)
  | path, .classDef place _ _ body, h => by
      have hflat : classBody [] place.line (Path.classBody []) 0 ⟨[], []⟩ (flatten target body) =
          (flatten target (flatten target body)).foldlM (classStatement place.line) ⟨[], []⟩ :=
        classBody_flatten place.line _ (follows_flatten target _ _ _ body)
      rw [flatten_flatten] at hflat
      simp [flattenStmt, liveItems, moduleStatement, hflat, classBody_flatten place.line _ h]
  | _, .definition _ _, _ | _, .assign _ _ _, _ | _, .typeVar _ _ _ _ _, _
  | _, .importModules _ _, _ | _, .importFrom _ _ _, _ | _, .importAll _ _, _ => by
      simp [flattenStmt, liveItems, moduleStatement]

-- A body has the items of its live statements.
theorem moduleBody_flatten {target : Target} {liveness : Liveness} :
    ∀ {path : Path} {position : Nat} {body : List Stmt},
      Follows target liveness (reached target path position body) →
      moduleBody liveness path position body =
        List.flatten <$> (flatten target body).mapM liveItems
  | _, _, [], _ => by simp [moduleBody, flatten]
  | path, position, statement :: rest, h => by
      rw [reached] at h
      have hrest := moduleBody_flatten h.append.2
      simp [moduleBody, flatten, moduleStatement_flatten h.append.1, hrest]

end

theorem moduleBody_eq_flatten {target : Target} {liveness : Liveness} {body : List Stmt}
    (h : Follows target liveness (reached target [] 0 body)) :
    moduleBody liveness [] 0 body = moduleBody [] [] 0 (flatten target body) := by
  rw [moduleBody_flatten h, moduleBody_flatten (follows_flatten target [] [] 0 body),
    flatten_flatten]

theorem moduleOf_flatten {target : Target} {liveness : Liveness} {body : List Stmt}
    (name : Text) (h : Follows target liveness (reached target [] 0 body)) :
    moduleOf name liveness body = moduleOf name [] (flatten target body) := by
  rw [moduleOf, moduleOf, moduleBody_eq_flatten h]

end TypeStub.Live
