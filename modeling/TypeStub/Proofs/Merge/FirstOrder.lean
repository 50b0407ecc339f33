import Mathlib.Data.List.Nodup

-- The names of a list, each once, in the order in which they first occur.
namespace TypeStub

section

variable {α : Type} [BEq α] [LawfulBEq α]

-- The elements of a list without repeats, ordered by their first occurrence.
structure InFirstOrder (firsts all : List α) : Prop where
  nodup : firsts.Nodup
  mem_iff : ∀ a, a ∈ firsts ↔ a ∈ all
  ordered : firsts.Pairwise fun a b => all.idxOf a < all.idxOf b

-- Leaving out elements does not change which of two others comes first.
theorem idxOf_filter_lt {p : α → Bool} {a b : α} (ha : p a = true) (hb : p b = true)
    {all : List α} (h : (all.filter p).idxOf a < (all.filter p).idxOf b) :
    all.idxOf a < all.idxOf b := by
  induction all with
  | nil => exact h
  | cons c rest ih =>
      by_cases hc : p c = true
      · rw [List.filter_cons_of_pos hc] at h
        by_cases hac : c = a
        · have hbc : c ≠ b := by
            rintro rfl
            rw [hac] at h
            exact absurd h (Nat.lt_irrefl _)
          rw [List.idxOf_cons_eq _ hac, List.idxOf_cons_ne _ hbc]
          exact Nat.succ_pos _
        · by_cases hbc : c = b
          · rw [List.idxOf_cons_eq _ hbc] at h
            exact absurd h (Nat.not_lt_zero _)
          · rw [List.idxOf_cons_ne _ hac, List.idxOf_cons_ne _ hbc] at h
            rw [List.idxOf_cons_ne _ hac, List.idxOf_cons_ne _ hbc]
            exact Nat.succ_lt_succ (ih (Nat.lt_of_succ_lt_succ h))
      · have hac : c ≠ a := fun he => hc (he ▸ ha)
        have hbc : c ≠ b := fun he => hc (he ▸ hb)
        rw [List.filter_cons_of_neg hc] at h
        rw [List.idxOf_cons_ne _ hac, List.idxOf_cons_ne _ hbc]
        exact Nat.succ_lt_succ (ih h)

theorem inFirstOrder_eraseDups (all : List α) : InFirstOrder all.eraseDups all := by
  induction hn : all.length using Nat.strongRecOn generalizing all with
  | ind n ih =>
      cases all with
      | nil => exact ⟨List.nodup_nil, fun _ => Iff.rfl, .nil⟩
      | cons first rest =>
          have hshorter : (rest.filter fun b => !b == first).length < n :=
            Nat.lt_of_le_of_lt (List.length_filter_le _ _) (hn ▸ Nat.lt_succ_self _)
          have hrest := ih _ hshorter _ rfl
          have hother : ∀ a ∈ (rest.filter fun b => !b == first).eraseDups, first ≠ a := by
            intro a ha
            have hmem := List.mem_filter.mp ((hrest.mem_iff a).mp ha)
            rintro rfl
            simp at hmem
          refine ⟨?_, fun a => List.mem_eraseDups, ?_⟩
          · rw [List.eraseDups_cons]
            exact List.nodup_cons.mpr ⟨fun hm => hother first hm rfl, hrest.nodup⟩
          · rw [List.eraseDups_cons]
            refine .cons (fun a ha => ?_) (hrest.ordered.imp_of_mem fun {a b} ha hb hlt => ?_)
            · rw [List.idxOf_cons_self, List.idxOf_cons_ne _ (hother a ha)]
              exact Nat.succ_pos _
            · rw [List.idxOf_cons_ne _ (hother a ha), List.idxOf_cons_ne _ (hother b hb)]
              refine Nat.succ_lt_succ (idxOf_filter_lt ?_ ?_ hlt)
              · simpa using (hother a ha).symm
              · simpa using (hother b hb).symm

theorem eraseDups_filter (p : α → Bool) (all : List α) :
    (all.filter p).eraseDups = all.eraseDups.filter p := by
  induction hn : all.length using Nat.strongRecOn generalizing all with
  | ind n ih =>
      cases all with
      | nil => rfl
      | cons first rest =>
          have hshorter : (rest.filter fun b => !b == first).length < n :=
            Nat.lt_of_le_of_lt (List.length_filter_le _ _) (hn ▸ Nat.lt_succ_self _)
          have hrest := ih _ hshorter _ rfl
          rw [List.filter_filter] at hrest
          by_cases hp : p first = true
          · rw [List.filter_cons_of_pos hp, List.eraseDups_cons, List.eraseDups_cons,
              List.filter_cons_of_pos hp, List.filter_filter, ← hrest]
            simp only [Bool.and_comm]
          · have hsame : rest.filter (fun b => p b && !b == first) = rest.filter p := by
              refine List.filter_congr fun b _ => ?_
              by_cases hb : b = first
              · simp [hb, hp]
              · simp [hb]
            rw [List.filter_cons_of_neg hp, List.eraseDups_cons, List.filter_cons_of_neg hp,
              ← hrest, hsame]

theorem eraseDups_of_nodup {all : List α} (h : all.Nodup) : all.eraseDups = all := by
  induction all with
  | nil => rfl
  | cons first rest ih =>
      obtain ⟨hfirst, hrest⟩ := List.nodup_cons.mp h
      have hothers : rest.filter (fun b => !b == first) = rest := by
        refine List.filter_eq_self.mpr fun b hb => ?_
        have hne : b ≠ first := fun he => hfirst (he ▸ hb)
        simpa using hne
      rw [List.eraseDups_cons, hothers, ih hrest]

theorem eraseDups_same {a : α} {all : List α} (hne : all ≠ []) (h : ∀ b ∈ all, b = a) :
    all.eraseDups = [a] := by
  obtain ⟨first, rest, rfl⟩ := List.exists_cons_of_ne_nil hne
  rw [List.eraseDups_cons, h first (by simp), List.filter_eq_nil_iff.mpr]
  · rfl
  · intro b hb
    simp [h b (by simp [hb])]

-- Repeats within a part of a list may be left out before those of the whole list are.
theorem eraseDups_append_part (before part after : List α) :
    (before ++ part.eraseDups ++ after).eraseDups = (before ++ part ++ after).eraseDups := by
  have hpart : (part.eraseDups.removeAll before).eraseDups = (part.removeAll before).eraseDups := by
    rw [List.removeAll, List.removeAll, eraseDups_filter, eraseDups_filter,
      eraseDups_of_nodup (inFirstOrder_eraseDups part).nodup]
  have hafter : after.removeAll (before ++ part.eraseDups) = after.removeAll (before ++ part) := by
    refine List.filter_congr fun a _ => ?_
    simp only [List.elem_eq_mem, List.mem_append, List.mem_eraseDups]
  rw [List.eraseDups_append, List.eraseDups_append, hpart, hafter, ← List.eraseDups_append,
    ← List.eraseDups_append]

end

end TypeStub
