import TypeStub.Text

namespace TypeStub

section

variable {α : Type} {P : List α → α → List α → Prop} {a : α} {rest more : List α}

-- A property of each element of a list, of the elements before it and of those after it.
def Throughout (P : List α → α → List α → Prop) (whole : List α) : Prop :=
  ∀ before a after, whole = before ++ a :: after → P before a after

theorem throughout_nil : Throughout P [] := by
  intro before a after h
  simp at h

theorem throughout_cons :
    Throughout P (a :: rest) ↔ P [] a rest ∧ Throughout (fun before => P (a :: before)) rest := by
  constructor
  · intro h
    refine ⟨h [] a rest rfl, fun before x after heq => ?_⟩
    exact h (a :: before) x after (by rw [heq, List.cons_append])
  · rintro ⟨hhead, hrest⟩ before x after heq
    cases before with
    | nil =>
        obtain ⟨rfl, rfl⟩ := List.cons.inj heq
        exact hhead
    | cons b before =>
        obtain ⟨rfl, htail⟩ := List.cons.inj heq
        exact hrest before x after htail

theorem throughout_append : Throughout P (rest ++ more) ↔
    Throughout (fun before a after => P before a (after ++ more)) rest ∧
      Throughout (fun before => P (rest ++ before)) more := by
  induction rest generalizing P with
  | nil => exact ⟨fun h => ⟨throughout_nil, h⟩, fun h => h.2⟩
  | cons b rest ih =>
      rw [List.cons_append, throughout_cons, throughout_cons, ih, and_assoc]
      rfl

-- A property that does not depend on what stands around an element.
theorem throughout_of_mem (h : ∀ a ∈ rest, ∀ before after, P before a after) :
    Throughout P rest := by
  rintro before a after rfl
  exact h a (by simp) before after

end

end TypeStub
