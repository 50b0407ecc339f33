import TypeStub.Proofs.Token.Block
import TypeStub.Proofs.Token.Joined
import TypeStub.Proofs.Token.Reach

-- A part of a line reads the same wherever it stands.
namespace TypeStub

namespace Cursor

-- The same place that many rows further down and that many columns further to the right.
def placed (row column : Nat) (c : Cursor) : Cursor :=
  { c with row := c.row + row, column := c.column + column }

section

variable {c next last : Cursor} {row column depth inner : Nat} {tokens : List Token}
  {kind : TokenKind} {text : Text}

theorem tripleString_placed (hbelow : c.below = []) (row column opening : Nat) (quote : Char)
    (h : c.tripleString opening quote = .token kind text next) :
    (c.placed row column).tripleString opening quote = .token kind text (next.placed row column) ∧
      next.below = [] := by
  simp only [tripleString, placed, hbelow, closeTriple] at h ⊢
  cases hclose : Lexeme.closingTriple? quote (c.rest.drop opening) with
  | none =>
      rw [hclose] at h
      cases h
  | some n =>
      rw [hclose] at h
      obtain ⟨rfl, rfl, rfl⟩ := (Step.token.injEq ..).mp h
      refine ⟨?_, rfl⟩
      simp only [Option.map_some, Step.token.injEq, Cursor.mk.injEq, true_and, and_true]
      omega

theorem step_placed (hbelow : c.below = []) (h : c.step = .token kind text next)
    (row column : Nat) :
    (c.placed row column).step = .token kind text (next.placed row column) ∧ next.below = [] := by
  obtain ⟨first, rest, hr, ⟨n, hlex, rfl, rfl⟩ | ⟨n, quote, hlex, htriple⟩⟩ := step_token_inv h
  · refine ⟨?_, hbelow⟩
    rw [step_of_token (c := c.placed row column) hr hlex]
    simp only [skip, placed, Step.token.injEq, Cursor.mk.injEq, true_and, and_true]
    omega
  · rw [step_of_tripleQuoted (c := c.placed row column) hr hlex]
    exact tripleString_placed hbelow row column _ _ htriple

theorem step_blank_placed (h : c.step = .blank next) (row column : Nat) :
    (c.placed row column).step = .blank (next.placed row column) := by
  obtain ⟨first, rest, hr, hlex, rfl⟩ := step_blank_inv h
  rw [step_of_blank (c := c.placed row column) hr (Lexeme.isBlank_of_ofText hlex)]
  simp only [skip, placed, Step.blank.injEq, Cursor.mk.injEq, true_and, and_true]
  omega

-- What is read does not depend on the place or on the brackets that are open there.
theorem Reads.placed (h : Reads c depth tokens last inner) (hbelow : c.below = [])
    (row column depth' : Nat) :
    ∃ others inner', others.map Token.spelling = tokens.map Token.spelling ∧
      Reads (c.placed row column) depth' others (last.placed row column) inner' := by
  induction h generalizing depth' with
  | refl => exact ⟨[], depth', rfl, .refl _ _⟩
  | token hs _ ih =>
      obtain ⟨hstep, hnext⟩ := step_placed hbelow hs row column
      obtain ⟨others, inner', hsame, hreads⟩ := ih hnext (depthAfter _ depth')
      exact ⟨_, inner', by rw [List.map_cons, List.map_cons, hsame]; rfl, .token hstep hreads⟩
  | blank hs _ ih =>
      obtain ⟨others, inner', hsame, hreads⟩ := ih ((step_blank_size hs).2.trans hbelow) depth'
      exact ⟨others, inner', hsame, .blank (step_blank_placed hs row column) hreads⟩

theorem Reads.sourced (h : Reads c depth tokens last inner) :
    ∀ t ∈ tokens, t.kind.isSourced = true := by
  induction h with
  | refl => simp
  | token hs _ ih => exact List.forall_mem_cons.mpr ⟨step_sourced hs, ih⟩
  | blank _ _ ih => exact ih

theorem Reads.depth_eq (h : Reads c depth tokens last inner) :
    inner = depthAfterAll (tokens.map Token.spelling) depth := by
  induction h with
  | refl => rfl
  | token _ _ ih => exact ih
  | blank _ _ ih => exact ih

end

end Cursor

-- A text without a line break that is read to its end, so that it has no comment.
def OneLine (text : Text) (words : List Spelling) : Prop :=
  '\n' ∉ text ∧ ∃ tokens width inner, tokens.map Token.spelling = words ∧
    Cursor.Reads ⟨0, 0, text, []⟩ 0 tokens ⟨0, width, [], []⟩ inner

section

variable {text suffix : Text} {words more : List Spelling}

theorem OneLine.scans (h : OneLine text words) (hsuffix : Lexeme.Separates suffix)
    (hmore : Scans suffix more) : Scans (text ++ suffix) (words ++ more) := by
  obtain ⟨hline, tokens, width, inner, rfl, hreads⟩ := h
  have hwidth : width = text.length := by
    have hl : ∀ line ∈ [text], '\n' ∉ line := by simpa using hline
    have hon : Cursor.On [text] ⟨0, 0, text, []⟩ := ⟨rfl, Nat.zero_lt_one, Nat.zero_le _, rfl⟩
    have hlast := hreads.on hl hon
    exact Nat.le_antisymm hlast.column (List.drop_eq_nil_iff.mp hlast.rest)
  intro row column below depth
  obtain ⟨others, inner', hsame, hplaced⟩ := hreads.placed rfl row column depth
  obtain ⟨later, hlater, hscan⟩ := hmore row (column + text.length) below inner'
  have hbefore := (hplaced.before hsuffix below rfl).scanLine_eq
  rw [hwidth] at hbefore
  simp only [Cursor.placed, Cursor.before, List.nil_append, Nat.zero_add] at hbefore
  rw [Nat.add_comm text.length, hscan] at hbefore
  refine ⟨others ++ later, by rw [List.map_append, hsame, hlater], hbefore.trans ?_⟩
  rw [hplaced.depth_eq, hsame, List.length_append, Nat.add_assoc, depthAfterAll, depthAfterAll,
    depthAfterAll, List.foldl_append]

theorem OneLine.sourced (h : OneLine text words) : ∀ word ∈ words, word.1.isSourced = true := by
  obtain ⟨-, tokens, width, inner, rfl, hreads⟩ := h
  intro word hword
  obtain ⟨t, ht, rfl⟩ := List.mem_map.mp hword
  exact hreads.sourced t ht

end

-- A scan that ends on its own row has all of its tokens there.
theorem scanLine_rows {c : Cursor} {depth last width inner : Nat} {tokens : List Token}
    {below : List Text} {joined : Bool}
    (h : scanLine c depth = (tokens, .done last width below inner joined)) :
    c.row ≤ last ∧ ∀ t ∈ tokens, c.row < t.line ∧ t.line ≤ last + 1 := by
  fun_induction scanLine c depth generalizing tokens with
  | case1 c depth kind text next hs _ more ending hscan ih =>
      obtain ⟨rfl, rfl⟩ := Prod.mk.inj h
      obtain ⟨hle, hmore⟩ := ih hscan
      have hrow := Cursor.step_row hs
      refine ⟨hrow.trans hle, List.forall_mem_cons.mpr ⟨⟨Nat.lt_succ_self _, ?_⟩, fun t ht => ?_⟩⟩
      · exact Nat.succ_le_succ (hrow.trans hle)
      · exact ⟨Nat.lt_of_le_of_lt hrow (hmore t ht).1, (hmore t ht).2⟩
  | case2 c depth next hs _ ih =>
      obtain ⟨_, _, -, -, rfl⟩ := Cursor.step_blank_inv hs
      exact ih h
  | case3 =>
      simp only [Prod.mk.injEq, LineEnd.done.injEq] at h
      obtain ⟨rfl, rfl, -⟩ := h
      exact ⟨Nat.le_refl _, by simp⟩
  | case4 => simp at h

namespace Margin

section

variable {m next last : Margin} {found : List Token}

theorem Line.row_lt (h : Line m found next) : m.row < next.row := by
  cases h with
  | ignored => exact Nat.lt_succ_self _
  | scanned _ hscan => exact Nat.lt_succ_of_le (scanLine_rows hscan).1

-- The tokens of a line stand on the rows that it takes.
theorem Line.rows (h : Line m found next) :
    ∀ t ∈ found, m.row < t.line ∧ t.line ≤ next.row := by
  cases h with
  | ignored => simp
  | scanned _ hscan =>
      obtain ⟨hlast, hrows⟩ := scanLine_rows hscan
      refine List.forall_mem_append.mpr ⟨fun t ht => ?_,
        List.forall_mem_append.mpr ⟨hrows, fun t ht => ?_⟩⟩
      · obtain ⟨kind, -, rfl⟩ := List.mem_map.mp ht
        exact ⟨Nat.lt_succ_self _, Nat.succ_le_succ hlast⟩
      · unfold lineBreak at ht
        split at ht
        · obtain rfl := List.mem_singleton.mp ht
          exact ⟨Nat.lt_succ_of_le hlast, Nat.le_refl _⟩
        · cases ht

theorem Run.rows (h : Run m found last) :
    m.row ≤ last.row ∧ ∀ t ∈ found, t.line ≤ last.row := by
  induction h with
  | refl => exact ⟨Nat.le_refl _, by simp⟩
  | line hline _ ih =>
      refine ⟨Nat.le_trans (Nat.le_of_lt hline.row_lt) ih.1, fun t ht => ?_⟩
      rcases List.mem_append.mp ht with ht | ht
      · exact Nat.le_trans (hline.rows t ht).2 ih.1
      · exact ih.2 t ht

end

end Margin

end TypeStub
