import TypeStub.Proofs.Token.Kept

namespace TypeStub

-- The end of a token stream: the end-of-file token, after an error token if there is an error.
inductive Ending : List Token → Prop
  | regular {e : Token} : e.kind = .endOfFile → Ending [e]
  | failed {f e : Token} : f.kind = .error → e.kind = .endOfFile → Ending [f, e]

theorem ending_failureTokens (cause : LexError) (row column : Nat) :
    Ending (failureTokens cause row column) := .failed rfl rfl

-- A token that neither ends a line nor the stream.
def Token.Inner (t : Token) : Prop := t.kind ≠ .newline ∧ t.kind ≠ .error ∧ t.kind ≠ .endOfFile

namespace Margin

variable {m next last : Margin} {found : List Token}

theorem inner_mark {kind : TokenKind} (row column : Nat) (h : kind = .indent ∨ kind = .dedent) :
    (markToken row column kind).Inner := by
  obtain rfl | rfl := h
  all_goals exact ⟨by simp [markToken], by simp [markToken], by simp [markToken]⟩

theorem inner_marks {before after : List Nat} {marks : List TokenKind} (row column : Nat)
    (h : Shift before marks after) : ∀ t ∈ marks.map (markToken row column), t.Inner := by
  intro t ht
  obtain ⟨kind, hkind, rfl⟩ := List.mem_map.mp ht
  exact inner_mark row column (h.kinds hkind)

theorem inner_of_sourced {t : Token} (h : t.kind.isSourced = true) : t.Inner := by
  refine ⟨fun hk => ?_, fun hk => ?_, fun hk => ?_⟩
  all_goals
    rw [hk] at h
    exact absurd h (by decide)

theorem inner_scanned {row column depth : Nat} {line : Text} {below : List Text} {layout : Layout}
    {marks : List TokenKind} {indents : List Nat} {loneComment : Bool} {ending : LineEnd}
    (hstart : lineStart line layout = .scan column marks indents loneComment)
    (hscan : scanLine ⟨row, column, line.drop column, below⟩ depth = (found, ending)) :
    ∀ t ∈ marks.map (markToken row column) ++ found, t.Inner := by
  intro t ht
  obtain ⟨-, hshift⟩ := LineStart.fits_of_eq hstart
  obtain ht | ht := List.mem_append.mp ht
  · exact inner_marks row column hshift t ht
  · exact inner_of_sourced (scanLine_sourced _ _ t (by rw [hscan]; exact ht))

-- A line has its break, if any, at its end.
theorem Line.inner (h : Line m found next) :
    ∃ body, (∀ t ∈ body, t.Inner) ∧
      (found = body ∨ ∃ t, found = body ++ [t] ∧ t.kind = .newline) := by
  cases h with
  | ignored => exact ⟨[], fun t ht => absurd ht List.not_mem_nil, .inl rfl⟩
  | scanned hstart hscan =>
      refine ⟨_, inner_scanned hstart hscan, ?_⟩
      unfold lineBreak
      split
      · exact .inr ⟨_, (List.append_assoc ..).symm, rfl⟩
      · exact .inl (by rw [List.append_nil])

theorem Stops.inner (h : Stops m found) :
    ∃ body tail, found = body ++ tail ∧ (∀ t ∈ body, t.Inner) ∧ Ending tail := by
  cases h with
  | @done row layout =>
      refine ⟨_, _, rfl, fun t ht => ?_, .regular rfl⟩
      obtain ⟨-, -, rfl⟩ := List.mem_map.mp ht
      exact inner_mark row 0 (.inr rfl)
  | @misaligned row column _ _ _ _ hstart =>
      obtain ⟨-, kept, hshift⟩ := LineStart.fits_of_eq hstart
      exact ⟨_, _, rfl, inner_marks row column hshift, ending_failureTokens ..⟩
  | failed hstart hscan =>
      exact ⟨_, _, (List.append_assoc ..).symm, inner_scanned hstart hscan,
        ending_failureTokens ..⟩

-- Nothing of the end of a stream stands before its end.
theorem tokens_ending (m : Margin) :
    ∃ body tail, m.tokens = body ++ tail ∧
      (∀ t ∈ body, t.kind ≠ .error ∧ t.kind ≠ .endOfFile) ∧ Ending tail := by
  refine tokens_induction (motive := fun _ tokens => ∃ body tail, tokens = body ++ tail ∧
    (∀ t ∈ body, t.kind ≠ .error ∧ t.kind ≠ .endOfFile) ∧ Ending tail) ?_ ?_ m
  · intro m found hstops
    obtain ⟨body, tail, hfound, hinner, hending⟩ := hstops.inner
    exact ⟨body, tail, hfound, fun t ht => (hinner t ht).2, hending⟩
  · intro m next found hline ih
    obtain ⟨more, tail, hmore, hrest, hending⟩ := ih
    obtain ⟨body, hinner, hfound⟩ := hline.inner
    refine ⟨found ++ more, tail, by rw [hmore, List.append_assoc], fun t ht => ?_, hending⟩
    obtain ht | ht := List.mem_append.mp ht
    · obtain rfl | ⟨newline, rfl, hnewline⟩ := hfound
      · exact (hinner t ht).2
      · obtain ht | ht := List.mem_append.mp ht
        · exact (hinner t ht).2
        · obtain rfl := List.mem_singleton.mp ht
          rw [hnewline]
          exact ⟨by simp, by simp⟩
    · exact hrest t ht

end Margin

end TypeStub
