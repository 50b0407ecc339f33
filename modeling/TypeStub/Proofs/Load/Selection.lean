import TypeStub.Proofs.Live.Declare
import TypeStub.Proofs.Load.Outcome

namespace TypeStub.Load

open Live

-- What comes of a tree: its module when it builds and no two declarations share a name.
def outcome (name : Text) (target : Target) (body : List Stmt) : Except Fault StubModule :=
  match build name target body with
  | .error fault => .error fault
  | .ok built =>
      match validate built with
      | .error fault => .error fault
      | .ok () => .ok built.module

-- A source that has a name and parses loads as its tree comes out.
theorem load_eq_outcome {digest : Hasher} {request : Request} {source name : Text}
    {body : List Stmt} (hname : moduleName digest request source = .ok name)
    (h : parseSource source = .ok body) :
    load digest request source =
      match outcome name request.target body with
      | .error fault => .error (ofFault request fault)
      | .ok module => .ok (qualify request module) := by
  rw [load_of_moduleName hname, loadAs, h, outcome]
  dsimp only
  cases build name request.target body with
  | error fault => rfl
  | ok built => cases hv : validate built <;> simp [hv]

theorem build_flatten (name : Text) (target other : Target) (body : List Stmt) :
    build name target body =
      match firstFailure? target body with
      | some fault => .error fault
      | none => build name other (flatten target body) := by
  have hclean : firstFailure? other (flatten target body) = none := by
    rw [firstFailure?, reached_flatten]
    rfl
  have hdecisions : decisions other (reached other [] 0 (flatten target body)) = [] := by
    rw [reached_flatten]
    rfl
  rw [build, build, tree_eq, tree_eq, hclean, hdecisions, flatten_flatten]
  cases firstFailure? target body with
  | some fault => rfl
  | none =>
      dsimp only [guarded]
      rw [moduleOf_flatten name (follows_decisions target [] 0 body)]

theorem outcome_flatten (name : Text) (target other : Target) (body : List Stmt) :
    outcome name target body =
      match firstFailure? target body with
      | some fault => .error fault
      | none => outcome name other (flatten target body) := by
  rw [outcome, build_flatten name target other body]
  cases firstFailure? target body with
  | some fault => rfl
  | none => rfl

-- A tree comes out as the tree in which every conditional that live code reaches gives way to the
-- branch that it selects, or as the first failure of their conditions. So neither the branches that
-- are not taken nor anything else about the target matters.
theorem outcome_selection (name : Text) (target other : Target) (body : List Stmt) :
    (outcome name target body =
      match firstFailure? target body with
      | some fault => .error fault
      | none => outcome name other (flatten target body)) ∧
    (∀ body', Agree target body body' → outcome name target body' = outcome name target body) ∧
    ((∀ b ∈ reached target [] 0 body,
        Condition.evaluate other b.condition = Condition.evaluate target b.condition) →
      outcome name other body = outcome name target body) := by
  refine ⟨outcome_flatten name target other body, fun body' h => ?_, fun h => ?_⟩
  · obtain ⟨hreached, hflat⟩ := h.eq
    rw [outcome_flatten name target other body, outcome_flatten name target other body',
      firstFailure?, firstFailure?, hreached, hflat]
  · obtain ⟨hreached, hflat⟩ := reached_congr h
    have hfailure : firstFailure? other body = firstFailure? target body := by
      rw [firstFailure?, firstFailure?, hreached]
      exact findSome?_failure_congr h
    rw [outcome_flatten name other other body, outcome_flatten name target other body, hfailure,
      hflat]

-- A conditional on the version that selects its first branch, for a tree that also differs in the
-- other branch and for a target on another platform.
theorem outcome_selection_version :
    let condition := Expr.compare (.name "sys.version_info") .greaterEq (.tuple [.int 3])
    let constant := fun name : Text => Stmt.assign ⟨2, 3⟩ name (.declared (.name "int") false)
    let tree := [Stmt.conditional ⟨1, 1⟩ false condition [constant "x"] [constant "y"]]
    let target : Target := ⟨[3, 6, 0], "linux"⟩
    let other : Target := ⟨[3, 7, 0], "win32"⟩
    outcome "m" target tree = outcome "m" .standard [constant "x"] ∧
      outcome "m" target
          [.conditional ⟨1, 1⟩ false condition [constant "x"] [constant "z", constant "z"]] =
        outcome "m" target tree ∧
      outcome "m" other tree = outcome "m" target tree := by
  intro condition constant tree target other
  have h := outcome_selection "m" target .standard tree
  refine ⟨h.1, h.2.1 _ (.cons (.selected _ _ _ _ (by decide) ?_) .nil), ?_⟩
  · exact .cons (.same _) .nil
  · refine (outcome_selection "m" target other tree).2.2 fun b hb => ?_
    obtain rfl := List.mem_singleton.mp hb
    decide

end TypeStub.Load
