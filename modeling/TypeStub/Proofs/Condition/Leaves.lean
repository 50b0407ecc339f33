import TypeStub.Condition
import TypeStub.Proofs.Grammar.Scoped

-- A condition tests its comparisons from left to right, up to the first that is true or fails.
namespace TypeStub

namespace Condition

structure Comparison where
  left : Expr
  op : CompareOp
  right : Expr

def Comparison.value (target : Target) (leaf : Comparison) : Except ConditionError Bool :=
  comparison target leaf.left leaf.op leaf.right

mutual

-- The comparisons that a condition is made of, from left to right.
inductive Leaves : Expr → List Comparison → Prop
  | compare (leaf : Comparison) : Leaves (.compare leaf.left leaf.op leaf.right) [leaf]
  | or {operands : List Expr} {leaves : List Comparison} : LeavesOf operands leaves →
      Leaves (.or operands) leaves

inductive LeavesOf : List Expr → List Comparison → Prop
  | nil : LeavesOf [] []
  | cons {operand : Expr} {rest : List Expr} {here there : List Comparison} :
      Leaves operand here → LeavesOf rest there → LeavesOf (operand :: rest) (here ++ there)

end

mutual

-- Every condition of the grammar is made of comparisons.
theorem exists_leaves : ∀ condition : Expr, condition.IsCondition → ∃ leaves,
    Leaves condition leaves
  | .compare left op right, _ => ⟨_, .compare ⟨left, op, right⟩⟩
  | .or operands, hc =>
      have ⟨leaves, hleaves⟩ := exists_leavesOf operands hc
      ⟨leaves, .or hleaves⟩

theorem exists_leavesOf : ∀ operands : List Expr, Expr.AreConditions operands → ∃ leaves,
    LeavesOf operands leaves
  | [], _ => ⟨[], .nil⟩
  | operand :: rest, hc =>
      have ⟨here, hhere⟩ := exists_leaves operand hc.1
      have ⟨there, hthere⟩ := exists_leavesOf rest hc.2
      ⟨here ++ there, .cons hhere hthere⟩

end

-- The comparisons of a list in turn.
def scan (target : Target) : List Comparison → Except ConditionError Bool
  | [] => .ok false
  | leaf :: rest =>
      match leaf.value target with
      | .ok false => scan target rest
      | outcome => outcome

section

variable {target : Target} {leaf : Comparison} {leaves before after : List Comparison}
  {outcome : Except ConditionError Bool} {e : ConditionError}

theorem scan_skip (h : leaf.value target = .ok false) :
    scan target (leaf :: after) = scan target after := by
  rw [scan, h]

theorem scan_stop (h : leaf.value target ≠ .ok false) :
    scan target (leaf :: after) = leaf.value target := by
  rw [scan]
  split
  · rename_i hfalse
    exact absurd hfalse h
  · rfl

theorem scan_append_of_false (h : scan target before = .ok false) :
    scan target (before ++ after) = scan target after := by
  induction before with
  | nil => rfl
  | cons leaf before ih =>
      by_cases hleaf : leaf.value target = .ok false
      · rw [scan_skip hleaf] at h
        rw [List.cons_append, scan_skip hleaf, ih h]
      · rw [scan_stop hleaf] at h
        exact absurd h hleaf

theorem scan_append_of_stop (h : scan target before ≠ .ok false) :
    scan target (before ++ after) = scan target before := by
  induction before with
  | nil => exact absurd rfl h
  | cons leaf before ih =>
      by_cases hleaf : leaf.value target = .ok false
      · rw [scan_skip hleaf] at h
        rw [List.cons_append, scan_skip hleaf, scan_skip hleaf, ih h]
      · rw [List.cons_append, scan_stop hleaf, scan_stop hleaf]

theorem scan_false : scan target leaves = .ok false ↔
    ∀ leaf ∈ leaves, leaf.value target = .ok false := by
  induction leaves with
  | nil => simp [scan]
  | cons leaf leaves ih =>
      rw [List.forall_mem_cons, ← ih]
      by_cases hleaf : leaf.value target = .ok false
      · rw [scan_skip hleaf]
        exact ⟨fun h => ⟨hleaf, h⟩, fun h => h.2⟩
      · rw [scan_stop hleaf]
        exact ⟨fun h => absurd h hleaf, fun h => absurd h.1 hleaf⟩

-- What comes after a comparison that decides is not tested.
theorem scan_decided (hbefore : ∀ b ∈ before, b.value target = .ok false)
    (hleaf : leaf.value target ≠ .ok false) :
    scan target (before ++ leaf :: after) = leaf.value target := by
  rw [scan_append_of_false (scan_false.mpr hbefore), scan_stop hleaf]

-- Every other outcome is that of the comparison that decides.
theorem scan_split (houtcome : outcome ≠ .ok false) (h : scan target leaves = outcome) :
    ∃ before leaf after, leaves = before ++ leaf :: after ∧
      (∀ b ∈ before, b.value target = .ok false) ∧ leaf.value target = outcome := by
  induction leaves with
  | nil => exact absurd h.symm houtcome
  | cons first leaves ih =>
      by_cases hfirst : first.value target = .ok false
      · rw [scan_skip hfirst] at h
        obtain ⟨before, leaf, after, rfl, hbefore, hleaf⟩ := ih h
        exact ⟨first :: before, leaf, after, rfl, List.forall_mem_cons.mpr ⟨hfirst, hbefore⟩, hleaf⟩
      · rw [scan_stop hfirst] at h
        exact ⟨[], first, leaves, rfl, by simp, h⟩

-- A true comparison may stand behind others that are true, but behind none that fails.
theorem scan_true (hbefore : ∀ b ∈ before, ∀ e, b.value target ≠ .error e)
    (hleaf : leaf.value target = .ok true) :
    scan target (before ++ leaf :: after) = .ok true := by
  induction before with
  | nil => rw [List.nil_append, scan_stop (by simp [hleaf]), hleaf]
  | cons first before ih =>
      obtain ⟨hfirst, hbefore⟩ := List.forall_mem_cons.mp hbefore
      cases hvalue : first.value target with
      | error e => exact absurd hvalue (hfirst e)
      | ok truth =>
          cases truth with
          | false => rw [List.cons_append, scan_skip hvalue, ih hbefore]
          | true => rw [List.cons_append, scan_stop (by simp [hvalue]), hvalue]

end

mutual

theorem evaluate_eq_scan (target : Target) : ∀ {condition : Expr} {leaves : List Comparison},
    Leaves condition leaves → evaluate target condition = scan target leaves
  | _, _, .compare leaf => by
      rw [evaluate]
      by_cases hleaf : leaf.value target = .ok false
      · rw [scan_skip hleaf]
        exact hleaf
      · rw [scan_stop hleaf]
        rfl
  | _, _, .or hleaves => by rw [evaluate, evaluateAny_eq_scan target hleaves]

-- The inner disjunction is over when it is false, and so decides when it is not.
theorem evaluateAny_eq_scan (target : Target) :
    ∀ {operands : List Expr} {leaves : List Comparison}, LeavesOf operands leaves →
      evaluateAny target operands = scan target leaves
  | _, _, .nil => rfl
  | _, _, @LeavesOf.cons operand rest here there hhere hthere => by
      rw [evaluateAny]
      have hoperand := evaluate_eq_scan target hhere
      have hrest := evaluateAny_eq_scan target hthere
      by_cases hfalse : scan target here = .ok false
      · rw [hoperand, hfalse, scan_append_of_false hfalse]
        exact hrest
      · rw [hoperand, scan_append_of_stop hfalse]
        split
        · rename_i heq
          exact absurd heq hfalse
        · rfl

end

variable {condition : Expr} {leaves : List Comparison}

-- A condition is true when one of its comparisons is true and none before that fails, fails like
-- the first that fails when none before that is true, and is false otherwise. What comes after the
-- first that is true or fails has no influence, and neither has the way in which they are grouped.
theorem evaluate_leaves (target : Target) (h : Leaves condition leaves) :
    (evaluate target condition = .ok true ↔
      ∃ before leaf after, leaves = before ++ leaf :: after ∧ leaf.value target = .ok true ∧
        ∀ b ∈ before, ∀ e, b.value target ≠ .error e) ∧
    (∀ e, evaluate target condition = .error e ↔
      ∃ before leaf after, leaves = before ++ leaf :: after ∧ leaf.value target = .error e ∧
        ∀ b ∈ before, b.value target ≠ .ok true ∧ ∀ e, b.value target ≠ .error e) ∧
    (evaluate target condition = .ok false ↔ ∀ leaf ∈ leaves, leaf.value target = .ok false) ∧
    ∀ before leaf after, leaves = before ++ leaf :: after → leaf.value target ≠ .ok false →
      ∀ other rest, Leaves other (before ++ leaf :: rest) →
        evaluate target other = evaluate target condition := by
  rw [evaluate_eq_scan target h]
  refine ⟨⟨fun htrue => ?_, ?_⟩, fun e => ⟨fun herror => ?_, ?_⟩, scan_false, ?_⟩
  · obtain ⟨before, leaf, after, hsplit, hbefore, hleaf⟩ := scan_split (by simp) htrue
    exact ⟨before, leaf, after, hsplit, hleaf, fun b hb e => by simp [hbefore b hb]⟩
  · rintro ⟨before, leaf, after, rfl, hleaf, hbefore⟩
    exact scan_true hbefore hleaf
  · obtain ⟨before, leaf, after, hsplit, hbefore, hleaf⟩ := scan_split (by simp) herror
    exact ⟨before, leaf, after, hsplit, hleaf, fun b hb => by simp [hbefore b hb]⟩
  · rintro ⟨before, leaf, after, rfl, hleaf, hbefore⟩
    have hfalse : ∀ b ∈ before, b.value target = .ok false := by
      intro b hb
      obtain ⟨htrue, hfails⟩ := hbefore b hb
      cases hvalue : b.value target with
      | error e => exact absurd hvalue (hfails e)
      | ok truth =>
          cases truth with
          | false => rfl
          | true => exact absurd hvalue htrue
    rw [scan_decided hfalse (by simp [hleaf]), hleaf]
  · rintro before leaf after rfl hleaf other rest hother
    rw [evaluate_eq_scan target hother]
    by_cases hfalse : scan target before = .ok false
    · rw [scan_append_of_false hfalse, scan_append_of_false hfalse, scan_stop hleaf,
        scan_stop hleaf]
    · rw [scan_append_of_stop hfalse, scan_append_of_stop hfalse]

-- In `(sys.platform == "a" or sys.platform == "b") or sys.platform < "b"`, for platform b, the last
-- comparison would fail but is not tested.
theorem evaluate_leaves_nested :
    let platform (op : CompareOp) (name : Text) : Comparison :=
      ⟨.name "sys.platform", op, .string name⟩
    let expr (leaf : Comparison) : Expr := .compare leaf.left leaf.op leaf.right
    (platform .less ['b']).value ⟨[3], ['b']⟩ = .error .platformOrder ∧
    evaluate ⟨[3], ['b']⟩ (.or [.or [expr (platform .eq ['a']), expr (platform .eq ['b'])],
      expr (platform .less ['b'])]) = .ok true := by
  intro platform expr
  have hleaves : Leaves (.or [.or [expr (platform .eq ['a']), expr (platform .eq ['b'])],
      expr (platform .less ['b'])])
      [platform .eq ['a'], platform .eq ['b'], platform .less ['b']] :=
    .or (.cons (.or (.cons (.compare _) (.cons (.compare _) .nil))) (.cons (.compare _) .nil))
  have hfirst : (platform .eq ['a']).value ⟨[3], ['b']⟩ = .ok false := rfl
  refine ⟨rfl, (evaluate_leaves ⟨[3], ['b']⟩ hleaves).1.mpr ?_⟩
  refine ⟨[platform .eq ['a']], platform .eq ['b'], [platform .less ['b']], rfl, rfl, ?_⟩
  intro b hb e
  obtain rfl := List.mem_singleton.mp hb
  simp [hfirst]

end Condition

end TypeStub
