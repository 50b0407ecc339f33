import TypeStub.Prescan

-- Conditionals by substitution: each one gives way to the branch that its condition selects.
namespace TypeStub.Live

-- Whether a condition selects its first branch. One that fails does not.
def selects (target : Target) (condition : Expr) : Bool :=
  match Condition.evaluate target condition with
  | .ok live => live
  | .error _ => false

mutual

def flattenStmt (target : Target) : Stmt → List Stmt
  | .conditional _ _ condition thenBody elseBody =>
      if selects target condition then flatten target thenBody else flatten target elseBody
  | .classDef place name args body => [.classDef place name args (flatten target body)]
  | statement => [statement]

def flatten (target : Target) : List Stmt → List Stmt
  | [] => []
  | statement :: rest => flattenStmt target statement ++ flatten target rest

end

-- A conditional: its node, the line of its `if` or `elif`, and what it asks.
structure Branching where
  path : Path
  line : Int32
  condition : Expr

mutual

def reachedStmt (target : Target) (path : Path) : Stmt → List Branching
  | .conditional place _ condition thenBody elseBody =>
      ⟨path, place.line, condition⟩ ::
        if selects target condition then reached target path.thenBody 0 thenBody
        else reached target path.elseBody 0 elseBody
  | .classDef _ _ _ body => reached target path.classBody 0 body
  | _ => []

-- The conditionals met on the way through live code, in source order.
def reached (target : Target) (path : Path) (position : Nat) : List Stmt → List Branching
  | [] => []
  | statement :: rest =>
      reachedStmt target (position :: path) statement ++ reached target path (position + 1) rest

end

-- The fault of a conditional whose condition fails.
def failure? (target : Target) (branching : Branching) : Option Fault :=
  match Condition.evaluate target branching.condition with
  | .ok _ => none
  | .error e => some (.at branching.line (.condition e))

-- The fault of the first conditional that fails among those reached.
def firstFailure? (target : Target) (body : List Stmt) : Option Fault :=
  (reached target [] 0 body).findSome? (failure? target)

theorem evaluate_cases (target : Target) (condition : Expr) :
    (∃ e, Condition.evaluate target condition = .error e) ∨
      Condition.evaluate target condition = .ok true ∨
      Condition.evaluate target condition = .ok false := by
  cases Condition.evaluate target condition with
  | error e => exact .inl ⟨e, rfl⟩
  | ok live => cases live <;> simp

theorem flatten_append (target : Target) (body more : List Stmt) :
    flatten target (body ++ more) = flatten target body ++ flatten target more := by
  induction body with
  | nil => rfl
  | cons statement rest ih => rw [List.cons_append, flatten, ih, flatten, List.append_assoc]

theorem reached_append (target : Target) (path : Path) (body more : List Stmt) :
    ∀ position, reached target path position (body ++ more) =
      reached target path position body ++ reached target path (position + body.length) more := by
  induction body with
  | nil => exact fun _ => rfl
  | cons statement rest ih =>
      intro position
      rw [List.cons_append, reached, ih, reached, List.append_assoc, List.length_cons,
        Nat.add_right_comm, Nat.add_assoc]

mutual

-- No conditional is left, so that the target does not matter any more.
theorem reached_flattenStmt (target other : Target) : ∀ (path : Path) (position : Nat)
    (statement : Stmt), reached other path position (flattenStmt target statement) = []
  | path, position, .conditional _ _ condition thenBody elseBody => by
      rw [flattenStmt]
      split
      · exact reached_flatten target other path position thenBody
      · exact reached_flatten target other path position elseBody
  | path, position, .classDef _ _ _ body => by
      have hbody := reached_flatten target other (Path.classBody (position :: path)) 0 body
      simp [flattenStmt, reached, reachedStmt, hbody]
  | _, _, .definition _ _ | _, _, .assign _ _ _ | _, _, .typeVar _ _ _ _ _
  | _, _, .importModules _ _ | _, _, .importFrom _ _ _ | _, _, .importAll _ _ => rfl

theorem reached_flatten (target other : Target) : ∀ (path : Path) (position : Nat)
    (body : List Stmt), reached other path position (flatten target body) = []
  | _, _, [] => rfl
  | path, position, statement :: rest => by
      rw [flatten, reached_append, reached_flattenStmt target other path position statement,
        reached_flatten target other path _ rest]
      rfl

end

mutual

theorem flatten_flattenStmt (target other : Target) : ∀ statement : Stmt,
    flatten other (flattenStmt target statement) = flattenStmt target statement
  | .conditional _ _ condition thenBody elseBody => by
      rw [flattenStmt]
      split
      · exact flatten_flatten target other thenBody
      · exact flatten_flatten target other elseBody
  | .classDef _ _ _ body => by
      simp [flattenStmt, flatten, flatten_flatten target other body]
  | .definition _ _ | .assign _ _ _ | .typeVar _ _ _ _ _ | .importModules _ _
  | .importFrom _ _ _ | .importAll _ _ => rfl

theorem flatten_flatten (target other : Target) : ∀ body : List Stmt,
    flatten other (flatten target body) = flatten target body
  | [] => rfl
  | statement :: rest => by
      rw [flatten, flatten_append, flatten_flattenStmt target other statement,
        flatten_flatten target other rest]

end

mutual

-- Trees that differ only inside branches that are not taken.
inductive AgreeStmt (target : Target) : Stmt → Stmt → Prop
  | same (statement : Stmt) : AgreeStmt target statement statement
  | classDef (place : Place) (name : Text) (args : List ClassArg) {body body' : List Stmt}
      (h : Agree target body body') :
      AgreeStmt target (.classDef place name args body) (.classDef place name args body')
  | selected (place : Place) (isElif : Bool) {condition : Expr}
      {thenBody thenBody' : List Stmt} (elseBody elseBody' : List Stmt)
      (hc : selects target condition = true) (h : Agree target thenBody thenBody') :
      AgreeStmt target (.conditional place isElif condition thenBody elseBody)
        (.conditional place isElif condition thenBody' elseBody')
  | passed (place : Place) (isElif : Bool) {condition : Expr} (thenBody thenBody' : List Stmt)
      {elseBody elseBody' : List Stmt} (hc : selects target condition = false)
      (h : Agree target elseBody elseBody') :
      AgreeStmt target (.conditional place isElif condition thenBody elseBody)
        (.conditional place isElif condition thenBody' elseBody')

inductive Agree (target : Target) : List Stmt → List Stmt → Prop
  | nil : Agree target [] []
  | cons {statement statement' : Stmt} {rest rest' : List Stmt}
      (hs : AgreeStmt target statement statement') (hr : Agree target rest rest') :
      Agree target (statement :: rest) (statement' :: rest')

end

mutual

theorem AgreeStmt.eq {target : Target} : ∀ {statement statement' : Stmt},
    AgreeStmt target statement statement' →
      (∀ path, reachedStmt target path statement' = reachedStmt target path statement) ∧
        flattenStmt target statement' = flattenStmt target statement
  | _, _, .same _ => ⟨fun _ => rfl, rfl⟩
  | _, _, .classDef _ _ _ h => by
      obtain ⟨hr, hf⟩ := h.eq
      simp [reachedStmt, flattenStmt, hr, hf]
  | _, _, .selected _ _ _ _ hc h => by
      obtain ⟨hr, hf⟩ := h.eq
      simp [reachedStmt, flattenStmt, hc, hr, hf]
  | _, _, .passed _ _ _ _ hc h => by
      obtain ⟨hr, hf⟩ := h.eq
      simp [reachedStmt, flattenStmt, hc, hr, hf]

theorem Agree.eq {target : Target} : ∀ {body body' : List Stmt}, Agree target body body' →
    (∀ path position, reached target path position body' = reached target path position body) ∧
      flatten target body' = flatten target body
  | _, _, .nil => ⟨fun _ _ => rfl, rfl⟩
  | _, _, .cons hs hr => by
      obtain ⟨hsr, hsf⟩ := hs.eq
      obtain ⟨hrr, hrf⟩ := hr.eq
      simp [reached, flatten, hsr, hsf, hrr, hrf]

end

mutual

-- Two targets that give the conditions reached for one of them the same values reach the same.
theorem reachedStmt_congr {target other : Target} : ∀ {path : Path} {statement : Stmt},
    (∀ b ∈ reachedStmt target path statement,
      Condition.evaluate other b.condition = Condition.evaluate target b.condition) →
      reachedStmt other path statement = reachedStmt target path statement ∧
        flattenStmt other statement = flattenStmt target statement
  | path, .conditional place _ condition thenBody elseBody, h => by
      simp only [reachedStmt, List.mem_cons, forall_eq_or_imp] at h
      obtain ⟨hc, h⟩ := h
      have hs : selects other condition = selects target condition := by simp only [selects, hc]
      cases hsel : selects target condition with
      | true =>
          obtain ⟨hr, hf⟩ := reached_congr (by simpa [hsel] using h)
          simp [reachedStmt, flattenStmt, hs, hsel, hr, hf]
      | false =>
          obtain ⟨hr, hf⟩ := reached_congr (by simpa [hsel] using h)
          simp [reachedStmt, flattenStmt, hs, hsel, hr, hf]
  | _, .classDef _ _ _ body, h => by
      obtain ⟨hr, hf⟩ := reached_congr h
      simp [reachedStmt, flattenStmt, hr, hf]
  | _, .definition _ _, _ | _, .assign _ _ _, _ | _, .typeVar _ _ _ _ _, _
  | _, .importModules _ _, _ | _, .importFrom _ _ _, _ | _, .importAll _ _, _ => ⟨rfl, rfl⟩

theorem reached_congr {target other : Target} : ∀ {path : Path} {position : Nat}
    {body : List Stmt},
    (∀ b ∈ reached target path position body,
      Condition.evaluate other b.condition = Condition.evaluate target b.condition) →
      reached other path position body = reached target path position body ∧
        flatten other body = flatten target body
  | _, _, [], _ => ⟨rfl, rfl⟩
  | _, _, statement :: rest, h => by
      simp only [reached, List.mem_append, or_imp, forall_and] at h
      obtain ⟨hsr, hsf⟩ := reachedStmt_congr h.1
      obtain ⟨hrr, hrf⟩ := reached_congr h.2
      simp [reached, flatten, hsr, hsf, hrr, hrf]

end

theorem findSome?_failure_congr {target other : Target} {branchings : List Branching}
    (h : ∀ b ∈ branchings,
      Condition.evaluate other b.condition = Condition.evaluate target b.condition) :
    branchings.findSome? (failure? other) = branchings.findSome? (failure? target) := by
  induction branchings with
  | nil => rfl
  | cons b rest ih =>
      simp only [List.mem_cons, forall_eq_or_imp] at h
      rw [List.findSome?_cons, List.findSome?_cons, ih h.2, failure?, failure?, h.1]

end TypeStub.Live
