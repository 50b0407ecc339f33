import Mathlib.Data.List.Sort
import Mathlib.Tactic.Linarith
import Mathlib.Tactic.Ring
import TypeStub.Target

namespace TypeStub

-- A 64-bit machine integer.
def IsWord (n : Int) : Prop := -2 ^ 63 ≤ n ∧ n < 2 ^ 63

instance (n : Int) : Decidable (IsWord n) :=
  inferInstanceAs (Decidable (-2 ^ 63 ≤ n ∧ n < 2 ^ 63))

theorem wrap_of_word {n : Int} (hn : IsWord n) : wrap n = n := by
  obtain ⟨hlow, hhigh⟩ := hn
  exact Int.bmod_eq_of_le (by omega) (by omega)

-- A sum of two machine integers that is too large comes out negative.
theorem wrap_of_overflow {n : Int} (hlow : 2 ^ 63 ≤ n) (hhigh : n < 2 ^ 64) :
    wrap n = n - 2 ^ 64 := by
  have hshift : wrap n = wrap (n - 2 ^ 64) := by
    rw [wrap, wrap, Int.sub_eq_add_neg]
    exact (Int.add_neg_bmod_self n 18446744073709551616).symm
  rw [hshift]
  exact wrap_of_word ⟨by omega, by omega⟩

section Run

variable {step last index : Int}

theorem precedes_up (hstep : 0 < step) : Precedes step index last ↔ index < last := by
  rw [Precedes, if_pos hstep]

theorem precedes_down (hstep : step < 0) : Precedes step index last ↔ last < index := by
  rw [Precedes, if_neg hstep.not_gt]

theorem Precedes.of_multiple (hstep : step ≠ 0) {k : Nat}
    (h : Precedes step (index + k * step) last) : Precedes step index last := by
  rcases lt_or_gt_of_ne hstep with hneg | hpos
  · rw [precedes_down hneg] at h ⊢
    nlinarith
  · rw [precedes_up hpos] at h ⊢
    nlinarith

-- A run that never leaves the machine integers visits the multiples of the step, up to the end.
theorem visit_run (hstep : step ≠ 0) {rest : Nat}
    (hword : ∀ k : Nat, Precedes step (index + k * step) last → IsWord (index + k * step + step))
    (hrest : ∀ k : Nat, Precedes step (index + k * step) last → k < rest) :
    ∃ count : Nat,
      visit step last rest index = (List.range count).map (fun (k : Nat) => index + k * step) ∧
      ∀ k : Nat, Precedes step (index + k * step) last ↔ k < count := by
  induction rest generalizing index with
  | zero => exact ⟨0, rfl, fun k => ⟨fun h => absurd (hrest k h) (by omega), by omega⟩⟩
  | succ rest ih =>
    by_cases hnow : Precedes step index last
    · have hnext : wrap (index + step) = index + step :=
        wrap_of_word (by simpa using hword 0 (by simpa using hnow))
      have hshift (k : Nat) : index + step + k * step = index + (k + 1 : Nat) * step := by
        push_cast; ring
      obtain ⟨count, hvisit, hcount⟩ := @ih (index + step)
        (fun k hk => by rw [hshift] at hk ⊢; exact hword (k + 1) hk)
        (fun k hk => by rw [hshift] at hk; have := hrest (k + 1) hk; omega)
      refine ⟨count + 1, ?_, ?_⟩
      · rw [visit, if_pos hnow, hnext, hvisit, List.range_succ_eq_map, List.map_cons, List.map_map]
        congr 1
        · simp
        · exact List.map_congr_left fun k _ => hshift k
      · intro k
        cases k with
        | zero => simpa using hnow
        | succ k => rw [← hshift, hcount]; omega
    · refine ⟨0, by rw [visit, if_neg hnow]; rfl, fun k => ⟨fun h => ?_, by omega⟩⟩
      exact absurd (h.of_multiple hstep) hnow

-- If some sum is too large, the run reaches the first such sum and goes on from a negative index.
theorem visit_overflow (hstep : 0 < step) (hword : IsWord step) (hlast : last ≤ 2 ^ 62) {rest : Nat}
    (hindex : 0 ≤ index) (hrest : last - index < rest) {k : Nat}
    (hk : index + k * step < last) (hover : 2 ^ 63 ≤ index + k * step + step) :
    (∃ i ∈ visit step last rest index, 2 ^ 63 ≤ i + step) ∧
      ∃ i ∈ visit step last rest index, i < 0 := by
  have hmultiple : 0 ≤ k * step := by positivity
  obtain ⟨-, hhigh⟩ := hword
  induction rest generalizing index k with
  | zero => omega
  | succ rest ih =>
    have hnow : Precedes step index last := by rw [precedes_up hstep]; omega
    rw [visit, if_pos hnow]
    by_cases hhere : 2 ^ 63 ≤ index + step
    · have hwrap : wrap (index + step) = index + step - 2 ^ 64 :=
        wrap_of_overflow hhere (by omega)
      obtain ⟨rest, rfl⟩ : ∃ n, rest = n + 1 := ⟨rest - 1, by omega⟩
      have hgo : Precedes step (wrap (index + step)) last := by
        rw [precedes_up hstep, hwrap]; omega
      refine ⟨⟨index, List.mem_cons_self, hhere⟩, wrap (index + step), List.mem_cons_of_mem _ ?_, ?_⟩
      · rw [visit, if_pos hgo]
        exact List.mem_cons_self
      · omega
    · have hnext : wrap (index + step) = index + step := wrap_of_word ⟨by omega, by omega⟩
      obtain ⟨k, rfl⟩ : ∃ n, k = n + 1 := by
        cases k with
        | zero => simp at hover; omega
        | succ n => exact ⟨n, rfl⟩
      have hshift : index + (k + 1 : Nat) * step = index + step + k * step := by push_cast; ring
      rw [hshift] at hk hover
      obtain ⟨⟨i, hi, hsum⟩, j, hj, hnegative⟩ :=
        @ih (index + step) (by omega) (by omega) k hk hover (by positivity)
      rw [hnext]
      exact ⟨⟨i, List.mem_cons_of_mem _ hi, hsum⟩, j, List.mem_cons_of_mem _ hj, hnegative⟩

-- A measure of the indices that falls at each step: with so many steps the run has come to its end.
theorem visit_enough (bounded : Nat → Int → Prop)
    (hzero : ∀ index, bounded 0 index → ¬Precedes step index last)
    (hsucc : ∀ rest index, bounded (rest + 1) index → Precedes step index last →
      bounded rest (wrap (index + step)))
    {rest : Nat} (hbounded : bounded rest index) (more : Nat) :
    visit step last (rest + more) index = visit step last rest index := by
  induction rest generalizing index with
  | zero =>
    cases more with
    | zero => rfl
    | succ more =>
      rw [Nat.zero_add, visit.eq_2, if_neg (hzero index hbounded), visit.eq_1]
  | succ rest ih =>
    rw [Nat.add_right_comm, visit, visit]
    by_cases hnow : Precedes step index last
    · rw [if_pos hnow, if_pos hnow, ih (hsucc rest index hbounded hnow)]
    · rw [if_neg hnow, if_neg hnow]

end Run

-- The positions that Python selects, computed without a limit on the numbers. A negative bound
-- counts from the end. The start moves into range; from there on every multiple of the step that
-- has a component and is before the stop is selected.

def fromEnd (size : Nat) (bound : Int) : Int := if bound < 0 then bound + size else bound

def Selects (size : Nat) (start stop : Option Int) (step : Int) (index : Nat) : Prop :=
  if 0 < step then
    let first : Int := max 0 ((start.map (fromEnd size)).getD 0)
    first ≤ index ∧ index < (stop.map (fromEnd size)).getD size ∧ step ∣ index - first
  else
    let first : Int := min (size - 1) ((start.map (fromEnd size)).getD (size - 1))
    index ≤ first ∧ (stop.map (fromEnd size)).getD (-1) < index ∧ step ∣ index - first

instance (size : Nat) (start stop : Option Int) (step : Int) (index : Nat) :
    Decidable (Selects size start stop step index) :=
  inferInstanceAs (Decidable (ite _ _ _))

def selection (size : Nat) (start stop : Option Int) (step : Int) : List Nat :=
  (if 0 < step then List.range size else (List.range size).reverse).filter
    (Selects size start stop step)

section Bounds

variable {size : Nat} {start stop : Option Int} {step : Int}

theorem clampBound_up (hstep : 0 < step) (bound : Int) :
    clampBound size step bound = min (size : Int) (max 0 (fromEnd size bound)) := by
  simp only [clampBound, fromEnd, if_neg hstep.not_gt]
  split_ifs <;> omega

theorem clampBound_down (hstep : step < 0) (bound : Int) :
    clampBound size step bound = min (size - 1 : Int) (max (-1) (fromEnd size bound)) := by
  simp only [clampBound, fromEnd, if_pos hstep]
  split_ifs <;> omega

theorem firstIndex_up (size : Nat) (start : Option Int) (hstep : 0 < step) :
    firstIndex size start step = min (size : Int) (max 0 ((start.map (fromEnd size)).getD 0)) := by
  cases start with
  | none =>
    simp only [firstIndex, if_pos hstep, Option.map_none, Option.getD_none]
    omega
  | some bound => exact clampBound_up hstep bound

theorem lastIndex_up (size : Nat) (stop : Option Int) (hstep : 0 < step) :
    lastIndex size stop step = min (size : Int) (max 0 ((stop.map (fromEnd size)).getD size)) := by
  cases stop with
  | none =>
    simp only [lastIndex, if_pos hstep, Option.map_none, Option.getD_none]
    omega
  | some bound => exact clampBound_up hstep bound

theorem firstIndex_down (size : Nat) (start : Option Int) (hstep : step < 0) :
    firstIndex size start step =
      min (size - 1 : Int) (max (-1) ((start.map (fromEnd size)).getD (size - 1))) := by
  cases start with
  | none =>
    simp only [firstIndex, if_neg hstep.not_gt, Option.map_none, Option.getD_none]
    omega
  | some bound => exact clampBound_down hstep bound

theorem lastIndex_down (size : Nat) (stop : Option Int) (hstep : step < 0) :
    lastIndex size stop step = min (size - 1 : Int) (max (-1) ((stop.map (fromEnd size)).getD (-1))) := by
  cases stop with
  | none =>
    simp only [lastIndex, if_neg hstep.not_gt, Option.map_none, Option.getD_none]
    omega
  | some bound => exact clampBound_down hstep bound

-- The multiples of the step that the run of a slice meets are components of the version.
theorem meets_component (hstep : step ≠ 0) {k : Nat}
    (hk : Precedes step (firstIndex size start step + k * step) (lastIndex size stop step)) :
    0 ≤ firstIndex size start step + k * step ∧ firstIndex size start step + k * step < size ∧
      k < size := by
  rcases lt_or_gt_of_ne hstep with hneg | hpos
  · rw [precedes_down hneg] at hk
    have hfirst := firstIndex_down size start hneg
    have hlast := lastIndex_down size stop hneg
    have hle : k * step ≤ -k := by nlinarith
    omega
  · rw [precedes_up hpos] at hk
    have hfirst := firstIndex_up size start hpos
    have hlast := lastIndex_up size stop hpos
    have hle : (k : Int) ≤ k * step := by nlinarith
    omega

theorem selects_iff (hstep : step ≠ 0) {index : Nat} (hindex : index < size) :
    Selects size start stop step index ↔
      Precedes step index (lastIndex size stop step) ∧
        ∃ k : Nat, (index : Int) = firstIndex size start step + k * step := by
  rcases lt_or_gt_of_ne hstep with hneg | hpos
  · rw [precedes_down hneg, Selects, if_neg hneg.not_gt, firstIndex_down size start hneg,
      lastIndex_down size stop hneg]
    set from' := (start.map (fromEnd size)).getD (size - 1)
    set upto := (stop.map (fromEnd size)).getD (-1)
    constructor
    · rintro ⟨hfirst, hlast, c, hc⟩
      refine ⟨by omega, c.toNat, ?_⟩
      have hcnonneg : 0 ≤ c := by nlinarith
      rw [Int.toNat_of_nonneg hcnonneg, mul_comm]
      omega
    · rintro ⟨hlast, k, hk⟩
      have hle : k * step ≤ 0 := by nlinarith
      refine ⟨by omega, by omega, k, ?_⟩
      rw [mul_comm]; omega
  · rw [precedes_up hpos, Selects, if_pos hpos, firstIndex_up size start hpos,
      lastIndex_up size stop hpos]
    set from' := (start.map (fromEnd size)).getD 0
    set upto := (stop.map (fromEnd size)).getD size
    constructor
    · rintro ⟨hfirst, hlast, c, hc⟩
      refine ⟨by omega, c.toNat, ?_⟩
      have hcnonneg : 0 ≤ c := by nlinarith
      rw [Int.toNat_of_nonneg hcnonneg, mul_comm]
      omega
    · rintro ⟨hlast, k, hk⟩
      have hle : 0 ≤ k * step := by nlinarith
      refine ⟨by omega, by omega, k, ?_⟩
      rw [mul_comm]; omega

theorem mem_selection {index : Nat} :
    index ∈ selection size start stop step ↔ index < size ∧ Selects size start stop step index := by
  simp only [selection, List.mem_filter, decide_eq_true_eq]
  split_ifs <;> simp

-- The positions are met in the direction of the step, each once.
theorem selection_ordered :
    (selection size start stop step).Pairwise
      fun (a b : Nat) => Precedes step a b := by
  unfold selection
  refine List.Pairwise.filter _ ?_
  split_ifs with hpos
  · refine List.pairwise_lt_range.imp fun h => ?_
    rw [precedes_up hpos]; omega
  · rw [List.pairwise_reverse]
    refine List.pairwise_lt_range.imp fun h => ?_
    rw [Precedes, if_neg hpos]; omega

-- No index that Python selects leaves the machine integers when the step is added to it.
def Fits (size : Nat) (start stop : Option Int) (step : Int) : Prop :=
  ∀ index ∈ selection size start stop step, (index : Int) + step < 2 ^ 63

instance (size : Nat) (start stop : Option Int) (step : Int) :
    Decidable (Fits size start stop step) :=
  inferInstanceAs (Decidable (∀ index ∈ selection size start stop step, (index : Int) + step < 2 ^ 63))

theorem fits_of_le (hstep : step ≤ 2 ^ 63 - size) : Fits size start stop step := by
  intro index hindex
  have hlt := (mem_selection.mp hindex).1
  omega

theorem meets_selection (hstep : step ≠ 0) {k : Nat}
    (hk : Precedes step (firstIndex size start step + k * step) (lastIndex size stop step)) :
    ∃ n ∈ selection size start stop step, (n : Int) = firstIndex size start step + k * step := by
  obtain ⟨hlow, hhigh, -⟩ := meets_component hstep hk
  obtain ⟨n, hn⟩ := Int.eq_ofNat_of_zero_le hlow
  have hsize : n < size := by omega
  refine ⟨n, mem_selection.mpr ⟨hsize, (selects_iff hstep hsize).mpr ⟨?_, k, ?_⟩⟩, ?_⟩
  · rw [← hn]; exact hk
  · exact hn.symm
  · exact hn.symm

theorem sliceIndices_of_fits (hstep : step ≠ 0) (hword : IsWord step)
    (hfits : Fits size start stop step) :
    sliceIndices size start stop step =
      (selection size start stop step).map fun (n : Nat) => (n : Int) := by
  set first := firstIndex size start step with hfirst
  set last := lastIndex size stop step with hlast
  obtain ⟨count, hvisit, hcount⟩ := @visit_run step last first hstep (size + 1)
    (fun k hk => by
      obtain ⟨n, hn, hk⟩ := meets_selection hstep hk
      have := hfits n hn
      have := hword.1
      exact ⟨by omega, by omega⟩)
    (fun k hk => by have := (meets_component hstep hk).2.2; omega)
  have hordered : (sliceIndices size start stop step).Pairwise (Precedes step) := by
    rw [sliceIndices, hvisit, List.pairwise_map]
    refine List.pairwise_lt_range.imp fun {a b} hab => ?_
    rcases lt_or_gt_of_ne hstep with hneg | hpos
    · rw [precedes_down hneg]; nlinarith
    · rw [precedes_up hpos]; nlinarith
  have hirreflexive {a b : Int} (h : Precedes step a b) : a ≠ b := by
    unfold Precedes at h; split_ifs at h <;> omega
  have hmapped : ((selection size start stop step).map fun (n : Nat) => (n : Int)).Pairwise
      (Precedes step) := List.pairwise_map.mpr selection_ordered
  refine List.Perm.eq_of_pairwise ?_ hordered hmapped ?_
  · intro a b _ _ hab hba
    unfold Precedes at hab hba; split_ifs at hab hba <;> omega
  · refine (List.perm_ext_iff_of_nodup (hordered.imp hirreflexive) (hmapped.imp hirreflexive)).mpr
      fun i => ?_
    rw [sliceIndices, hvisit]
    simp only [List.mem_map, List.mem_range, ← hcount, mem_selection]
    constructor
    · rintro ⟨k, hk, rfl⟩
      obtain ⟨n, hn, hnk⟩ := meets_selection hstep hk
      exact ⟨n, mem_selection.mp hn, hnk⟩
    · rintro ⟨n, ⟨hsize, hselects⟩, rfl⟩
      obtain ⟨hbefore, k, hk⟩ := (selects_iff hstep hsize).mp hselects
      exact ⟨k, hk ▸ hbefore, hk.symm⟩

-- Once a sum is too large the run reads before the first component.
theorem sliceIndices_overflow (hstep : step ≠ 0) (hword : IsWord step) (hsize : size < 2 ^ 60)
    (hfits : ¬Fits size start stop step) :
    (∃ i ∈ sliceIndices size start stop step, 2 ^ 63 ≤ i + step) ∧
      ∃ i ∈ sliceIndices size start stop step, i < 0 := by
  simp only [Fits, not_forall, not_lt] at hfits
  obtain ⟨n, hn, hover⟩ := hfits
  obtain ⟨hlt, hselects⟩ := mem_selection.mp hn
  obtain ⟨hbefore, k, hk⟩ := (selects_iff hstep hlt).mp hselects
  have hpos : 0 < step := by omega
  have hfirst := firstIndex_up size start hpos
  have hlast := lastIndex_up size stop hpos
  rw [precedes_up hpos, hk] at hbefore
  rw [hk] at hover
  exact visit_overflow hpos hword (by omega) (by omega) (by omega) hbefore hover

-- One step more than there are components is enough for every run, also for one that overflows: such
-- a run goes between both ends of the machine integers and comes down by the same amount each time.
theorem sliceIndices_ends (hstep : step ≠ 0) (hword : IsWord step) (hsize : size < 2 ^ 60)
    (more : Nat) :
    visit step (lastIndex size stop step) (size + 1 + more) (firstIndex size start step) =
      sliceIndices size start stop step := by
  obtain ⟨hlow, hhigh⟩ := hword
  rcases lt_or_gt_of_ne hstep with hneg | hpos
  · have hfirst := firstIndex_down size start hneg
    have hlast := lastIndex_down size stop hneg
    refine visit_enough (fun rest index => index - lastIndex size stop step ≤ rest ∧ index < 2 ^ 60)
      (fun index h => ?_) (fun rest index h hnow => ?_) ⟨by omega, by omega⟩ more
    · rw [precedes_down hneg]; omega
    · rw [precedes_down hneg] at hnow
      rw [wrap_of_word ⟨by omega, by omega⟩]
      omega
  · have hfirst := firstIndex_up size start hpos
    have hlast := lastIndex_up size stop hpos
    by_cases hshort : step ≤ 2 ^ 63 - size
    · refine visit_enough (fun rest index => lastIndex size stop step - index ≤ rest ∧ 0 ≤ index)
        (fun index h => ?_) (fun rest index h hnow => ?_) ⟨by omega, by omega⟩ more
      · rw [precedes_up hpos]; omega
      · rw [precedes_up hpos] at hnow
        rw [wrap_of_word ⟨by omega, by omega⟩]
        omega
    · -- A position is met as itself or, after a sum that is too large, 2 ^ 63 below.
      refine visit_enough (fun rest index => lastIndex size stop step ≤ index ∨
          (-size ≤ index ∧ index < size ∧ index + 2 ≤ rest ∧ 1 ≤ rest) ∨
          (0 ≤ index + 2 ^ 63 ∧ index + 2 ^ 63 < size ∧ index + 2 ^ 63 + 2 ≤ rest))
        (fun index h => ?_) (fun rest index h hnow => ?_) (by omega) more
      · rw [precedes_up hpos]; omega
      · rw [precedes_up hpos] at hnow
        by_cases hover : 2 ^ 63 ≤ index + step
        · rw [wrap_of_overflow hover (by omega)]; omega
        · rw [wrap_of_word ⟨by omega, by omega⟩]; omega

-- So these are the slices that read components only.
theorem inside_iff_fits (hstep : step ≠ 0) (hword : IsWord step) (hsize : size < 2 ^ 60) :
    (∀ index ∈ sliceIndices size start stop step, 0 ≤ index ∧ index < size) ↔
      Fits size start stop step := by
  constructor
  · intro hreads
    by_contra hfits
    obtain ⟨-, i, hi, hnegative⟩ := sliceIndices_overflow hstep hword hsize hfits
    have := (hreads i hi).1
    omega
  · intro hfits index hindex
    rw [sliceIndices_of_fits hstep hword hfits, List.mem_map] at hindex
    obtain ⟨n, hn, rfl⟩ := hindex
    have := (mem_selection.mp hn).1
    omega

end Bounds

theorem componentAt?_natCast {α : Type} (elements : List α) {index : Nat} (hindex : index < 2 ^ 61) :
    componentAt? elements index = elements[index]? := by
  have hlow : ((index : Int) % 2305843009213693952).toNat = index := by omega
  rw [componentAt?, hlow]

-- The exact values of the sums that a slice computes: the start of a backward slice, the bounds
-- that count from the end, and the index after each one that is visited.
def sliceSums (size : Nat) (start stop : Option Int) (step : Int) : List Int :=
  (size - 1 : Int) :: ((start.toList ++ stop.toList).filter (· < 0)).map (· + (size : Int)) ++
    (sliceIndices size start stop step).map (· + step)

theorem word_sliceSums {size : Nat} {start stop : Option Int} {step : Int}
    (hsize : size < 2 ^ 60) (hstart : ∀ b ∈ start, IsWord b) (hstop : ∀ b ∈ stop, IsWord b)
    (hword : IsWord step) (hstep : step ≠ 0) (hfits : Fits size start stop step) :
    ∀ sum ∈ sliceSums size start stop step, IsWord sum := by
  intro sum hsum
  rw [sliceSums, sliceIndices_of_fits hstep hword hfits] at hsum
  simp only [List.cons_append, List.mem_cons, List.mem_append, List.mem_map, List.mem_filter,
    Option.mem_toList, decide_eq_true_eq] at hsum
  rcases hsum with rfl | ⟨bound, ⟨hbound, hneg⟩, rfl⟩ | ⟨_, ⟨index, hindex, rfl⟩, rfl⟩
  · exact ⟨by omega, by omega⟩
  · have hboundword : IsWord bound := hbound.elim (hstart bound) (hstop bound)
    exact ⟨by have := hboundword.1; omega, by omega⟩
  · exact ⟨by have := hword.1; omega, hfits index hindex⟩

-- A slice is Python's slice exactly when the step fits above the last index that is selected. Only
-- a step of zero fails. Otherwise these are the same: that no sum of the run leaves the machine
-- integers, that no read leaves the list, and that each selected index leaves room for the step; the
-- run then visits the selected indices in order, and answers with their components.
theorem slice_python {α : Type} (elements : List α) (start stop step : Option Int)
    (hsize : elements.length < 2 ^ 60) (hstart : ∀ b ∈ start, IsWord b)
    (hstop : ∀ b ∈ stop, IsWord b) (hstep : ∀ b ∈ step, IsWord b) :
    (slice? elements start stop step = none ↔ step = some 0) ∧
      (step ≠ some 0 →
        ((∀ sum ∈ sliceSums elements.length start stop (step.getD 1), IsWord sum) ↔
          Fits elements.length start stop (step.getD 1)) ∧
        ((∀ index ∈ sliceIndices elements.length start stop (step.getD 1),
            0 ≤ index ∧ index < elements.length) ↔
          Fits elements.length start stop (step.getD 1)) ∧
        (Fits elements.length start stop (step.getD 1) →
          sliceIndices elements.length start stop (step.getD 1) =
            (selection elements.length start stop (step.getD 1)).map (fun (n : Nat) => (n : Int)) ∧
          ∃ part, slice? elements start stop step = some part ∧
            part.map some =
              (selection elements.length start stop (step.getD 1)).map (elements[·]?))) := by
  have hzero : step.getD 1 = 0 ↔ step = some 0 := by cases step <;> simp
  have hword : IsWord (step.getD 1) := by
    cases step with
    | none => decide
    | some step => exact hstep step rfl
  refine ⟨by simp [slice?, hzero], fun hnonzero => ?_⟩
  have hne : step.getD 1 ≠ 0 := mt hzero.mp hnonzero
  generalize hstride : step.getD 1 = stride at *
  refine ⟨⟨fun hsums => ?_, word_sliceSums hsize hstart hstop hword hne⟩,
    inside_iff_fits hne hword hsize, fun hfits => ?_⟩
  · by_contra hfits
    obtain ⟨⟨i, hi, hover⟩, -⟩ := sliceIndices_overflow hne hword hsize hfits
    have hsum : i + stride ∈ sliceSums elements.length start stop stride :=
      List.mem_append_right _ (List.mem_map_of_mem hi)
    have := (hsums _ hsum).2
    omega
  · refine ⟨sliceIndices_of_fits hne hword hfits, _, by rw [slice?, hstride, if_neg hne], ?_⟩
    rw [sliceIndices_of_fits hne hword hfits, List.filterMap_map, List.map_filterMap,
      ← List.filterMap_eq_map]
    refine List.filterMap_congr fun n hn => ?_
    have hlt : n < elements.length := (mem_selection.mp hn).1
    have hindex : n < 2 ^ 61 := by omega
    simp only [Function.comp_apply, componentAt?_natCast elements hindex,
      List.getElem?_eq_getElem hlt, Option.map_some]

-- The step just fits above the index 1.
theorem slice_python_edge :
    ∃ part, slice? (padVersion [2, 7]) (some 1) none (some (2 ^ 63 - 2)) = some part ∧
      part.map some = [some 7] := by
  have hselection : selection (padVersion [2, 7]).length (some 1) none (2 ^ 63 - 2) = [1] := by decide
  obtain ⟨part, hpart, helements⟩ := (((slice_python (padVersion [2, 7]) (some 1) none
    (some (2 ^ 63 - 2)) (by decide) (by decide) (by decide) (by decide)).2 (by decide)).2.2
    (by decide)).2
  exact ⟨part, hpart, by rw [helements, Option.getD_some, hselection]; rfl⟩

-- The step is added to the last index too: here the sum is 2 ^ 63 + 1, and the run goes on before the
-- first component.
theorem slice_overflows :
    selection 3 (some 2) none (2 ^ 63 - 1) = [2] ∧
      sliceIndices 3 (some 2) none (2 ^ 63 - 1) = [2, -2 ^ 63 + 1, 0] ∧
      ¬(∀ sum ∈ sliceSums 3 (some 2) none (2 ^ 63 - 1), IsWord sum) ∧
      slice? (padVersion [2, 7, 6]) (some 2) none (some (2 ^ 63 - 1)) = some [6, 7, 2] := by
  decide

end TypeStub
