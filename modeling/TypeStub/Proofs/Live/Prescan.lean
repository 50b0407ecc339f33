import Mathlib.Data.List.Nodup
import TypeStub.Proofs.Live.Selection

namespace TypeStub.Live

mutual

-- The names that live statements declare, those inside classes among them.
def declareStmt (names : Names) : Stmt → Names
  | .classDef _ name _ body => declare (names.addClass name) body
  | .typeVar _ name _ _ _ => names.addTypeVar name
  | _ => names

def declare (names : Names) : List Stmt → Names
  | [] => names
  | statement :: rest => declare (declareStmt names statement) rest

end

-- What the conditionals select, the last one in front.
def decisions (target : Target) (branchings : List Branching) : Liveness :=
  (branchings.map fun b => (b.path, selects target b.condition)).reverse

-- A result, unless there was a failure before it.
def guarded {α : Type} (failure : Option Fault) (result : α) : Except Fault α :=
  match failure with
  | some fault => .error fault
  | none => .ok result

theorem declare_append (names : Names) (body more : List Stmt) :
    declare names (body ++ more) = declare (declare names body) more := by
  induction body generalizing names with
  | nil => rfl
  | cons statement rest ih => rw [List.cons_append, declare, ih, declare]

theorem decisions_append (target : Target) (branchings more : List Branching) :
    decisions target (branchings ++ more) =
      decisions target more ++ decisions target branchings := by
  simp [decisions]

mutual

theorem statement_eq (target : Target) : ∀ (path : Path) (scan : Prescan) (statement : Stmt),
    Prescan.statement target path scan statement =
      guarded ((reachedStmt target path statement).findSome? (failure? target))
        ⟨declare scan.names (flattenStmt target statement),
          decisions target (reachedStmt target path statement) ++ scan.liveness⟩
  | path, scan, .conditional place _ condition thenBody elseBody => by
      have ht := body_eq target path.thenBody 0
        { scan with liveness := (path, true) :: scan.liveness } thenBody
      have he := body_eq target path.elseBody 0
        { scan with liveness := (path, false) :: scan.liveness } elseBody
      rw [Prescan.statement, reachedStmt, flattenStmt, List.findSome?_cons]
      rcases evaluate_cases target condition with ⟨e, h⟩ | h | h
      · simp [h, failure?, guarded]
      · simp [h, failure?, selects, ht, decisions]
      · simp [h, failure?, selects, he, decisions]
  | path, scan, .classDef _ name _ members => by
      rw [Prescan.statement, body_eq target path.classBody 0 _ members]
      rfl
  | path, scan, .typeVar _ _ _ _ _ => rfl
  | path, scan, .definition _ _ | path, scan, .assign _ _ _ | path, scan, .importModules _ _
  | path, scan, .importFrom _ _ _ | path, scan, .importAll _ _ => rfl

-- The first pass stops at the first failure, or else it notes what the live statements declare and
-- what the conditionals select.
theorem body_eq (target : Target) : ∀ (path : Path) (position : Nat) (scan : Prescan)
    (body : List Stmt), Prescan.body target path position scan body =
      guarded ((reached target path position body).findSome? (failure? target))
        ⟨declare scan.names (flatten target body),
          decisions target (reached target path position body) ++ scan.liveness⟩
  | path, position, scan, [] => rfl
  | path, position, scan, statement :: rest => by
      rw [Prescan.body, statement_eq target (position :: path) scan statement, reached, flatten,
        List.findSome?_append, declare_append, decisions_append, List.append_assoc]
      cases (reachedStmt target (position :: path) statement).findSome? (failure? target) with
      | some fault => rfl
      | none => exact body_eq target path (position + 1) _ rest

end

theorem tree_eq (useBuiltins : Bool) (target : Target) (body : List Stmt) :
    Prescan.tree useBuiltins target body =
      guarded (firstFailure? target body)
        ⟨declare (Names.empty useBuiltins) (flatten target body),
          decisions target (reached target [] 0 body)⟩ := by
  rw [Prescan.tree, body_eq, List.append_nil]
  rfl

theorem tree_ok {useBuiltins : Bool} {target : Target} {body : List Stmt} {scan : Prescan}
    (h : Prescan.tree useBuiltins target body = .ok scan) :
    scan = ⟨declare (Names.empty useBuiltins) (flatten target body),
      decisions target (reached target [] 0 body)⟩ := by
  rw [tree_eq] at h
  unfold guarded at h
  split at h
  · simp at h
  · exact ((Except.ok.injEq ..).mp h).symm

theorem firstFailure?_eq_none {useBuiltins : Bool} {target : Target} {body : List Stmt}
    {scan : Prescan} (h : Prescan.tree useBuiltins target body = .ok scan) :
    firstFailure? target body = none := by
  rw [tree_eq] at h
  unfold guarded at h
  split at h
  · simp at h
  · assumption

-- The first pass stops at the first condition that has no value.
theorem tree_error {useBuiltins : Bool} {target : Target} {body : List Stmt} {fault : Fault}
    (h : Prescan.tree useBuiltins target body = .error fault) :
    ∃ before b after e, reached target [] 0 body = before ++ b :: after ∧
      (∀ passed ∈ before, ∃ live, Condition.evaluate target passed.condition = .ok live) ∧
      Condition.evaluate target b.condition = .error e ∧ fault = .at b.line (.condition e) := by
  rw [tree_eq] at h
  unfold guarded at h
  split at h
  · rename_i found hf
    obtain rfl : found = fault := Except.error.inj h
    obtain ⟨before, b, after, hsplit, hb, hbefore⟩ := List.findSome?_eq_some_iff.mp hf
    unfold failure? at hb
    split at hb
    · simp at hb
    · rename_i e he
      refine ⟨before, b, after, e, hsplit, fun passed hp => ?_, he, (Option.some.inj hb).symm⟩
      have hnone := hbefore passed hp
      unfold failure? at hnone
      split at hnone
      · exact ⟨_, by assumption⟩
      · simp at hnone
  · simp at h

mutual

-- The conditionals of a statement lie at its node or below.
theorem suffix_of_mem_reachedStmt {target : Target} : ∀ {path : Path} {statement : Stmt}
    {b : Branching}, b ∈ reachedStmt target path statement → path <:+ b.path
  | path, .conditional _ _ condition thenBody elseBody, b, hb => by
      rw [reachedStmt, List.mem_cons] at hb
      rcases hb with rfl | hb
      · exact List.suffix_rfl
      · split at hb
        · exact (List.suffix_cons _ _).trans (suffix_of_mem_reached hb)
        · exact (List.suffix_cons _ _).trans (suffix_of_mem_reached hb)
  | path, .classDef _ _ _ _, b, hb => (List.suffix_cons _ _).trans (suffix_of_mem_reached hb)

theorem suffix_of_mem_reached {target : Target} : ∀ {path : Path} {position : Nat}
    {body : List Stmt} {b : Branching}, b ∈ reached target path position body → path <:+ b.path
  | path, position, statement :: rest, b, hb => by
      rw [reached, List.mem_append] at hb
      rcases hb with hb | hb
      · exact (List.suffix_cons _ _).trans (suffix_of_mem_reachedStmt hb)
      · exact suffix_of_mem_reached hb

end

-- Those of a body lie below one of its positions.
theorem position_of_mem_reached {target : Target} {path : Path} {body : List Stmt} {b : Branching} :
    ∀ {position : Nat}, b ∈ reached target path position body →
      ∃ later, position ≤ later ∧ later :: path <:+ b.path := by
  induction body with
  | nil => simp [reached]
  | cons statement rest ih =>
      intro position hb
      rw [reached, List.mem_append] at hb
      rcases hb with hb | hb
      · exact ⟨position, Nat.le_refl _, suffix_of_mem_reachedStmt hb⟩
      · obtain ⟨later, hle, hs⟩ := ih hb
        exact ⟨later, Nat.le_of_succ_le hle, hs⟩

-- Two nodes below one body lie below the same position of it when they are the same.
theorem position_eq_of_suffix {path node : Path} {first second : Nat}
    (hf : first :: path <:+ node) (hs : second :: path <:+ node) : first = second := by
  have h := List.suffix_of_suffix_length_le hf hs (by simp)
  exact (List.cons.inj (h.eq_of_length (by simp))).1

mutual

theorem nodup_reachedStmt (target : Target) : ∀ (path : Path) (statement : Stmt),
    ((reachedStmt target path statement).map Branching.path).Nodup
  | path, .conditional place _ condition thenBody elseBody => by
      have hbelow : ∀ (branch : Nat) (body : List Stmt),
          path ∉ (reached target (branch :: path) 0 body).map Branching.path := by
        intro branch body hm
        obtain ⟨b, hb, he⟩ := List.mem_map.mp hm
        have hlen := (suffix_of_mem_reached hb).length_le
        rw [he, List.length_cons] at hlen
        omega
      rw [reachedStmt, List.map_cons, List.nodup_cons]
      split
      · exact ⟨hbelow 0 thenBody, nodup_reached target path.thenBody 0 thenBody⟩
      · exact ⟨hbelow 1 elseBody, nodup_reached target path.elseBody 0 elseBody⟩
  | path, .classDef _ _ _ body => nodup_reached target path.classBody 0 body
  | _, .definition _ _ | _, .assign _ _ _ | _, .typeVar _ _ _ _ _ | _, .importModules _ _
  | _, .importFrom _ _ _ | _, .importAll _ _ => List.nodup_nil

-- No node is reached twice.
theorem nodup_reached (target : Target) : ∀ (path : Path) (position : Nat) (body : List Stmt),
    ((reached target path position body).map Branching.path).Nodup
  | _, _, [] => List.nodup_nil
  | path, position, statement :: rest => by
      rw [reached, List.map_append, List.nodup_append]
      refine ⟨nodup_reachedStmt target _ statement, nodup_reached target path _ rest, ?_⟩
      intro node hn node' hn' he
      obtain ⟨b, hb, rfl⟩ := List.mem_map.mp hn
      obtain ⟨b', hb', rfl⟩ := List.mem_map.mp hn'
      obtain ⟨later, hle, hs⟩ := position_of_mem_reached hb'
      have hp := position_eq_of_suffix (suffix_of_mem_reachedStmt hb) (he ▸ hs)
      omega

end

theorem lookup_of_mem {α β : Type} [BEq α] [LawfulBEq α] {pairs : List (α × β)} {key : α}
    {value : β} (hn : (pairs.map Prod.fst).Nodup) (hm : (key, value) ∈ pairs) :
    pairs.lookup key = some value := by
  induction pairs with
  | nil => simp at hm
  | cons head rest ih =>
      obtain ⟨first, found⟩ := head
      rw [List.map_cons, List.nodup_cons] at hn
      rcases List.mem_cons.mp hm with he | htail
      · obtain ⟨rfl, rfl⟩ := Prod.mk.inj he
        simp
      · have hne : key ≠ first := by
          rintro rfl
          exact hn.1 (List.mem_map.mpr ⟨_, htail, rfl⟩)
        have hb : (key == first) = false := by simpa using hne
        simpa [List.lookup_cons, hb] using ih hn.2 htail

-- The decisions that were noted are those that the conditions make.
theorem lookup_decisions {target : Target} {branchings : List Branching} {b : Branching}
    (hn : (branchings.map Branching.path).Nodup) (hb : b ∈ branchings) :
    (decisions target branchings).lookup b.path = some (selects target b.condition) := by
  refine lookup_of_mem ?_ ?_
  · have hkeys : (decisions target branchings).map Prod.fst =
        (branchings.map Branching.path).reverse := by
      simp [decisions, List.map_reverse, Function.comp_def]
    rw [hkeys]
    exact List.nodup_reverse.mpr hn
  · simpa [decisions] using ⟨b, hb, rfl, rfl⟩

theorem selects_decisions {target : Target} {branchings : List Branching} {b : Branching}
    (hn : (branchings.map Branching.path).Nodup) (hb : b ∈ branchings) :
    (decisions target branchings).selects b.path = selects target b.condition := by
  rw [Liveness.selects, lookup_decisions hn hb]
  rfl

end TypeStub.Live
