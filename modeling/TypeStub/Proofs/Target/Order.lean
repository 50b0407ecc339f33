import Mathlib.Data.List.DropRight
import TypeStub.Condition
import TypeStub.Proofs.Ensures
import TypeStub.Proofs.Target.Slice

namespace TypeStub

-- A version without the zeros at its end.
def significant (version : List Int) : List Int := version.rdropWhile (· == 0)

theorem compareVersions_nil_left (right : List Int) :
    compareVersions [] right = (compareToZero right).swap := by
  cases right <;> rfl

theorem compareVersions_nil_right (left : List Int) :
    compareVersions left [] = compareToZero left := by
  cases left <;> rfl

-- The comparison goes on by one component, which is zero where a version has ended.
theorem compareVersions_step (left right : List Int) :
    compareVersions left right =
      (compare (left.headD 0) (right.headD 0)).then (compareVersions left.tail right.tail) := by
  cases left with
  | nil =>
    cases right with
    | nil => rfl
    | cons r right =>
      have hzero : (compare r 0).swap = compare 0 r := Std.OrientedCmp.eq_swap.symm
      rw [compareVersions_nil_left, compareToZero, Ordering.swap_then, hzero, List.tail_nil,
        List.tail_cons, compareVersions_nil_left]
      rfl
  | cons l left =>
    cases right with
    | nil =>
      rw [compareVersions_nil_right, compareToZero, List.tail_nil, List.tail_cons,
        compareVersions_nil_right]
      rfl
    | cons r right => rfl

theorem rightpad_succ (version : List Int) (n : Nat) :
    version.rightpad (n + 1) 0 = version.headD 0 :: version.tail.rightpad n 0 := by
  cases version with
  | nil => simp [List.rightpad, List.replicate_succ]
  | cons first rest => simp [List.rightpad]

-- So it is the lexicographic one of the versions as soon as zeros make them equally long.
theorem compareVersions_rightpad {n : Nat} {left right : List Int} (hl : left.length ≤ n)
    (hr : right.length ≤ n) :
    compareVersions left right =
      List.compareLex compare (left.rightpad n 0) (right.rightpad n 0) := by
  induction n generalizing left right with
  | zero =>
    have hleft : left = [] := List.length_eq_zero_iff.mp (by omega)
    have hright : right = [] := List.length_eq_zero_iff.mp (by omega)
    rw [hleft, hright]
    rfl
  | succ n ih =>
    have hl' : left.tail.length ≤ n := by rw [List.length_tail]; omega
    have hr' : right.tail.length ≤ n := by rw [List.length_tail]; omega
    rw [compareVersions_step, rightpad_succ, rightpad_succ, List.compareLex_cons_cons, ih hl' hr']

instance : Std.TransCmp compareVersions where
  eq_swap {left right} := by
    have hl : left.length ≤ max left.length right.length := by omega
    have hr : right.length ≤ max left.length right.length := by omega
    rw [compareVersions_rightpad hl hr, compareVersions_rightpad hr hl]
    exact Std.OrientedCmp.eq_swap
  isLE_trans {first second third} h h' := by
    have h₁ : first.length ≤ max first.length (max second.length third.length) := by omega
    have h₂ : second.length ≤ max first.length (max second.length third.length) := by omega
    have h₃ : third.length ≤ max first.length (max second.length third.length) := by omega
    rw [compareVersions_rightpad h₁ h₂] at h
    rw [compareVersions_rightpad h₂ h₃] at h'
    rw [compareVersions_rightpad h₁ h₃]
    exact Std.TransCmp.isLE_trans h h'

theorem significant_append_zero (version : List Int) :
    significant (version ++ [0]) = significant version := by
  rw [significant, List.rdropWhile_concat_pos _ _ _ rfl, significant]

theorem significant_rightpad (version : List Int) (n : Nat) :
    significant (version.rightpad n 0) = significant version := by
  rw [List.rightpad]
  induction n - version.length with
  | zero => rw [List.replicate_zero, List.append_nil]
  | succ zeros ih =>
    rw [List.replicate_succ', ← List.append_assoc, significant_append_zero, ih]

-- Zeros put in place of zeros that were taken away.
theorem rightpad_significant {version : List Int} {n : Nat} (h : version.length ≤ n) :
    (significant version).rightpad n 0 = version.rightpad n 0 := by
  induction version using List.reverseRecOn with
  | nil => rfl
  | append_singleton version last ih =>
    rw [List.length_append, List.length_singleton] at h
    by_cases hzero : last = 0
    · have hpad : (version ++ [0]).rightpad n 0 = version.rightpad n 0 := by
        have hzeros : n - version.length = n - (version.length + 1) + 1 := by omega
        simp [List.rightpad, hzeros, List.replicate_succ]
      rw [hzero, significant_append_zero, hpad]
      exact ih (by omega)
    · rw [significant, List.rdropWhile_concat_neg _ _ _ (by simpa using hzero)]

-- Versions compare equal when they differ in zeros at their ends only.
theorem compareVersions_eq_iff {left right : List Int} :
    compareVersions left right = .eq ↔ significant left = significant right := by
  have hl : left.length ≤ max left.length right.length := by omega
  have hr : right.length ≤ max left.length right.length := by omega
  rw [compareVersions_rightpad hl hr, Std.LawfulEqCmp.compare_eq_iff_eq]
  constructor
  · intro h
    rw [← significant_rightpad left, h, significant_rightpad]
  · intro h
    rw [← rightpad_significant hl, h, rightpad_significant hr]

namespace Condition

-- An index or a slice that reads inside a version. A slice does where no index that it selects is too
-- large for the step; any other slice goes on from a sum that wraps around, and what it then reads
-- before the first component is no part of the version, so that the test has no defined value.
def ReadsInside (version : List Int) : Expr → Prop
  | .slice start stop step => ∀ first last stride : Option Int, start = first.map .int →
      stop = last.map .int → step = stride.map .int →
      Fits version.length first last (stride.getD 1)
  | _ => True

-- The operands of a version test that has a value, with the version that it reads and the version
-- that it expects. One component counts as a version of its own.
inductive Comparable (version : List Int) : Expr → Expr → List Int → List Int → Prop
  | whole (expected : List Int) :
    Comparable version (.name "sys.version_info") (.tuple (expected.map .int)) version expected
  | sliced {start stop step : Option Int} {part : List Int} (more : List Expr)
    (expected : List Int) :
    Fits version.length start stop (step.getD 1) → slice? version start stop step = some part →
    Comparable version
      (.subscript (.name "sys.version_info")
        (.slice (start.map .int) (stop.map .int) (step.map .int) :: more))
      (.tuple (expected.map .int)) part expected
  | indexed {index component : Int} (more : List Expr) (expected : Int) :
    element version index = .ok component →
    Comparable version (.subscript (.name "sys.version_info") (.int index :: more))
      (.int expected) [component] [expected]

-- Values of the six operators that come from one order of their operands.
structure Ordered (value : CompareOp → Bool) (order : Ordering) : Prop where
  less : value .less = true ↔ order = .lt
  eq : value .eq = true ↔ order = .eq
  greater : value .greater = true ↔ order = .gt
  one : [CompareOp.less, .eq, .greater].countP value = 1
  notEq : value .notEq = !value .eq
  lessEq : value .lessEq = (value .less || value .eq)
  greaterEq : value .greaterEq = (value .greater || value .eq)

theorem ordered_holds (order : Ordering) : Ordered (·.holds order) order := by
  cases order <;> constructor <;> decide

theorem integers_map (values : List Int) : integers? (.tuple (values.map .int)) = some values := by
  rw [integers?]
  induction values with
  | nil => rfl
  | cons value rest ih => simp [integer?, ih]

theorem eq_int_of_integer {e : Expr} {value : Int} (h : integer? e = some value) :
    e = .int value := by
  cases e <;> simp_all [integer?]

theorem eq_tuple_of_integers {e : Expr} {values : List Int} (h : integers? e = some values) :
    e = .tuple (values.map .int) := by
  cases e with
  | tuple elements =>
    rw [integers?] at h
    induction elements generalizing values with
    | nil =>
      have hnil : values = [] := by simpa using h.symm
      rw [hnil]
      rfl
    | cons first rest ih =>
      simp only [List.mapM_cons, Option.bind_eq_bind, Option.bind_eq_some_iff] at h
      obtain ⟨value, hvalue, more, hmore, hvalues⟩ := h
      have htuple : Expr.tuple rest = .tuple (more.map .int) := ih hmore
      rw [Expr.tuple.injEq] at htuple
      rw [eq_int_of_integer hvalue, htuple, ← Option.some.inj hvalues]
      rfl
  | _ => simp [integers?] at h

theorem bound_int (part : Option Int) : bound (part.map .int) = .ok part := by
  cases part <;> rfl

theorem eq_int_of_bound {part : Option Expr} {value : Option Int} (h : bound part = .ok value) :
    part = value.map .int := by
  unfold bound at h
  split at h
  · rw [← Except.ok.inj h]
    rfl
  · rw [← Except.ok.inj h]
    rfl
  · simp at h

section

variable {version read expected : List Int} {left right : Expr}

theorem compareTuple_integers (op : CompareOp) :
    compareTuple read op (.tuple (expected.map .int)) =
      .ok (op.holds (compareVersions read expected)) := by
  rw [compareTuple, integers_map]

theorem compareVersions_singleton (component expected : Int) :
    compareVersions [component] [expected] = compare component expected :=
  Ordering.then_eq

-- Either way of comparing decides by the order of versions.
theorem Comparable.evaluate_eq {target : Target}
    (h : Comparable (padVersion target.version) left right read expected) (op : CompareOp) :
    evaluate target (.compare left op right) =
      .ok (op.holds (compareVersions read expected)) := by
  cases h with
  | whole =>
    rw [evaluate]
    exact compareTuple_integers op
  | @sliced start stop step _ more _ _ hslice =>
    rw [evaluate]
    show compareVersion _ (some (.slice _ _ _)) op _ = _
    rw [compareVersion, bound_int, bound_int, bound_int]
    simp only [bind, Except.bind, hslice]
    exact compareTuple_integers op
  | @indexed index component more expected hcomponent =>
    rw [evaluate, compareVersions_singleton]
    show compareElement _ index op (.int expected) = _
    rw [compareElement, hcomponent]
    rfl

theorem exists_integers_of_ok {op : CompareOp} {value : Bool}
    (h : compareTuple read op right = .ok value) :
    ∃ expected : List Int, right = .tuple (expected.map .int) := by
  unfold compareTuple at h
  split at h
  · rename_i expected hexpected
    exact ⟨expected, eq_tuple_of_integers hexpected⟩
  · simp at h

theorem comparable_of_compareVersion {index : Expr} {more : List Expr} {op : CompareOp}
    {value : Bool} (hi : ReadsInside version index)
    (h : compareVersion version (some index) op right = .ok value) :
    ∃ read expected, Comparable version (.subscript (.name "sys.version_info") (index :: more))
      right read expected := by
  unfold compareVersion at h
  split at h
  · contradiction
  · rename_i start stop step hindex
    obtain ⟨first, hstart, h⟩ := except_bind_ok h
    obtain ⟨last, hstop, h⟩ := except_bind_ok h
    obtain ⟨stride, hstep, h⟩ := except_bind_ok h
    rw [Option.some.inj hindex] at hi ⊢
    have hfits : Fits version.length first last (stride.getD 1) :=
      hi first last stride (eq_int_of_bound hstart) (eq_int_of_bound hstop) (eq_int_of_bound hstep)
    rw [eq_int_of_bound hstart, eq_int_of_bound hstop, eq_int_of_bound hstep]
    split at h
    · rename_i part hpart
      obtain ⟨expected, hright⟩ := exists_integers_of_ok h
      rw [hright]
      exact ⟨part, expected, .sliced more expected hfits hpart⟩
    · contradiction
  · rename_i position hindex
    obtain ⟨component, hcomponent, h⟩ := except_bind_ok h
    rw [Option.some.inj hindex]
    cases right with
    | int expected => exact ⟨[component], [expected], .indexed more expected hcomponent⟩
    | _ => contradiction
  · contradiction

-- The version as a whole, or a part of it.
inductive ReadsVersion (version : List Int) : Expr → Prop
  | whole : ReadsVersion version (.name "sys.version_info")
  | part {index : Expr} (more : List Expr) (hi : ReadsInside version index) :
    ReadsVersion version (.subscript (.name "sys.version_info") (index :: more))

-- Only operands with an order have a value.
theorem comparable_of_ok {target : Target} {op : CompareOp} {value : Bool}
    (hl : ReadsVersion (padVersion target.version) left)
    (h : evaluate target (.compare left op right) = .ok value) :
    ∃ read expected, Comparable (padVersion target.version) left right read expected := by
  rw [evaluate] at h
  cases hl with
  | whole =>
    have htuple : compareTuple (padVersion target.version) op right = .ok value := h
    obtain ⟨expected, hright⟩ := exists_integers_of_ok htuple
    rw [hright]
    exact ⟨_, expected, .whole expected⟩
  | part more hi => exact comparable_of_compareVersion hi h

end

-- Versions are ordered but for zeros at their ends, and each of the six operators decides by that
-- order. A test that reads inside the version has a value for all of them or for none.
theorem comparison_ordered :
    (∀ left right, compareVersions right left = (compareVersions left right).swap) ∧
      (∀ first second third, (compareVersions first second).isLE →
        (compareVersions second third).isLE → (compareVersions first third).isLE) ∧
      (∀ first second third, compareVersions first second = .lt →
        compareVersions second third = .lt → compareVersions first third = .lt) ∧
      (∀ left right, compareVersions left right = .eq ↔ significant left = significant right) ∧
      (∀ target left right read expected,
        Comparable (padVersion target.version) left right read expected →
        ∃ value, (∀ op, evaluate target (.compare left op right) = .ok (value op)) ∧
          Ordered value (compareVersions read expected)) ∧
      ∀ target left op right value, ReadsVersion (padVersion target.version) left →
        evaluate target (.compare left op right) = .ok value →
        ∃ read expected, Comparable (padVersion target.version) left right read expected := by
  refine ⟨?_, ?_, ?_, ?_, ?_, ?_⟩
  · intro left right
    exact Std.OrientedCmp.eq_swap
  · intro first second third h h'
    exact Std.TransCmp.isLE_trans h h'
  · intro first second third h h'
    exact Std.TransCmp.lt_trans h h'
  · intro left right
    exact compareVersions_eq_iff
  · intro target left right read expected h
    exact ⟨_, h.evaluate_eq, ordered_holds _⟩
  · intro target left op right value hl h
    exact comparable_of_ok hl h

-- A slice of a short version against a tuple of another length.
theorem comparison_ordered_slice :
    let target : Target := ⟨[3, 10], "linux"⟩
    let left : Expr := .subscript (.name "sys.version_info") [.slice (some (.int 1)) none none]
    let right : Expr := .tuple [.int 10, .int 0, .int 0]
    (compareVersions [10] [10, 0, 0]).isLE ∧ (compareVersions [10, 0, 0] [10, 0, 1]).isLE ∧
      compareVersions [10, 0, 0] [10, 0, 1] = .lt ∧ compareVersions [10, 0, 1] [11] = .lt ∧
      Comparable (padVersion target.version) left right [10, 0] [10, 0, 0] ∧
      ReadsVersion (padVersion target.version) left ∧
      evaluate target (.compare left .eq right) = .ok true ∧
      (compareVersions [10] [10, 0, 1]).isLE ∧ compareVersions [10, 0, 0] [11] = .lt ∧
      (∃ value, (∀ op, evaluate target (.compare left op right) = .ok (value op)) ∧
        Ordered value (compareVersions [10, 0] [10, 0, 0])) ∧
      ∃ read expected, Comparable (padVersion target.version) left right read expected := by
  intro target left right
  have hle : (compareVersions [10] [10, 0, 0]).isLE := by decide
  have hle' : (compareVersions [10, 0, 0] [10, 0, 1]).isLE := by decide
  have hlt : compareVersions [10, 0, 0] [10, 0, 1] = .lt := by decide
  have hlt' : compareVersions [10, 0, 1] [11] = .lt := by decide
  have hslice : slice? (padVersion target.version) (some 1) none none = some [10, 0] := by decide
  have hfits : Fits (padVersion target.version).length (some 1) none 1 := by decide
  have hcomparable : Comparable (padVersion target.version) left right [10, 0] [10, 0, 0] :=
    .sliced [] [10, 0, 0] hfits hslice
  have hreads : ReadsVersion (padVersion target.version) left := by
    have hint : Function.Injective (Option.map Expr.int) :=
      Option.map_injective fun _ _ => Expr.int.inj
    refine .part [] fun first last stride hfirst hlast hstride => ?_
    obtain rfl : some 1 = first := hint hfirst
    obtain rfl : none = last := hint hlast
    obtain rfl : none = stride := hint hstride
    exact hfits
  have hequal : evaluate target (.compare left .eq right) = .ok true := by
    rw [hcomparable.evaluate_eq]
    decide
  obtain ⟨-, htrans, hstrict, -, hordered, hcomparable'⟩ := comparison_ordered
  exact ⟨hle, hle', hlt, hlt', hcomparable, hreads, hequal, htrans _ _ _ hle hle',
    hstrict _ _ _ hlt hlt', hordered _ _ _ _ _ hcomparable, hcomparable' _ _ _ _ _ hreads hequal⟩

end Condition

end TypeStub
