import TypeStub.Proofs.Token.Scan
import TypeStub.Proofs.Token.Indent
import TypeStub.Proofs.Token.Spelling

-- The open brackets after tokens, and the lines that a backslash joins.
namespace TypeStub

-- The brackets that are open after tokens.
def openBrackets (tokens : List Token) : Nat := depthAfterAll (tokens.map Token.spelling) 0

-- The column to which tokens reach on a row: where the last one that ends there has its end.
def reachOn (row column : Nat) (tokens : List Token) : Nat :=
  tokens.foldl (fun column t =>
    if t.kind.isSourced && t.finish.row == row then t.finish.column else column) column

-- A backslash with nothing else than blanks.
def Joins (text : Text) : Prop :=
  ∃ rest, text.dropWhile Text.isBlank = '\\' :: rest ∧ rest.all Text.isBlank = true

-- What follows the tokens on a row joins it to the next one.
def Continued (lines : List Text) (tokens : List Token) (row : Nat) : Prop :=
  Joins ((rowText lines row).drop (reachOn row 0 tokens))

section

variable {text rest : Text} {c : Char}

theorem not_joins_nil : ¬ Joins [] := by
  rintro ⟨rest, h, -⟩
  simp at h

theorem joins_blank (hb : Text.isBlank c = true) : Joins (c :: rest) ↔ Joins rest := by
  unfold Joins
  rw [List.dropWhile_cons_of_pos hb]

theorem joins_mark (hb : Text.isBlank c = false) :
    Joins (c :: rest) ↔ c = '\\' ∧ rest.all Text.isBlank = true := by
  unfold Joins
  rw [List.dropWhile_cons_of_neg (by simp [hb])]
  constructor
  · rintro ⟨more, heq, hall⟩
    obtain ⟨rfl, rfl⟩ := List.cons.inj heq
    exact ⟨rfl, hall⟩
  · rintro ⟨rfl, hall⟩
    exact ⟨rest, rfl, hall⟩

theorem joins_drop {column : Nat} (hb : LineStart.Blank text column) :
    Joins (text.drop column) ↔ Joins text := by
  obtain ⟨hle, hblank⟩ := hb
  induction column generalizing text with
  | zero => exact Iff.rfl
  | succ column ih =>
      cases text with
      | nil => exact absurd hle (by simp)
      | cons first more =>
          rw [List.take_succ_cons] at hblank
          rw [List.drop_succ_cons, joins_blank (hblank first (by simp))]
          exact ih (Nat.le_of_succ_le_succ hle) fun b hm => hblank b (List.mem_cons_of_mem _ hm)

end

section

variable {tokens more : List Token} {lines : List Text} {row column : Nat}

theorem openBrackets_append : openBrackets (tokens ++ more) =
    depthAfterAll (more.map Token.spelling) (openBrackets tokens) := by
  rw [openBrackets, List.map_append, depthAfterAll, List.foldl_append]
  rfl

theorem reachOn_append :
    reachOn row column (tokens ++ more) = reachOn row (reachOn row column tokens) more :=
  List.foldl_append

-- Tokens of other rows do not reach on a row.
theorem reachOn_elsewhere (h : ∀ t ∈ tokens, t.kind.isSourced = true → t.finish.row ≠ row) :
    reachOn row column tokens = column := by
  induction tokens with
  | nil => rfl
  | cons t rest ih =>
      have hno : (t.kind.isSourced && t.finish.row == row) = false := by
        have ht := h t (by simp)
        rw [Bool.and_eq_false_imp]
        intro hs
        simpa using ht hs
      rw [reachOn, List.foldl_cons, hno]
      exact ih fun u hu => h u (List.mem_cons_of_mem _ hu)

theorem depthAfter_unsourced {kind : TokenKind} (h : kind.isSourced = false) (depth : Nat) :
    depthAfter kind depth = depth := by
  cases kind <;> first | rfl | cases h

-- Tokens of the layout open no bracket and cover nothing.
theorem balanced_unsourced (h : ∀ t ∈ more, t.kind.isSourced = false) :
    Balanced (more.map Token.spelling) := by
  induction more with
  | nil => exact .nil
  | cons t rest ih =>
      exact .cons (depthAfter_unsourced (h t (by simp)))
        (ih fun u hu => h u (List.mem_cons_of_mem _ hu))

theorem openBrackets_unsourced (h : ∀ t ∈ more, t.kind.isSourced = false) :
    openBrackets (tokens ++ more) = openBrackets tokens := by
  rw [openBrackets_append]
  exact balanced_unsourced h _

theorem continued_unsourced (h : ∀ t ∈ more, t.kind.isSourced = false) :
    Continued lines (tokens ++ more) row ↔ Continued lines tokens row := by
  unfold Continued
  rw [reachOn_append, reachOn_elsewhere fun t ht hs => absurd hs (by simp [h t ht])]

end

section

variable {lines : List Text} {c : Cursor} {tokens : List Token} {depth last row width : Nat}
  {below : List Text} {joined : Bool}

-- A scan counts the brackets of its tokens.
theorem scanLine_depth (h : scanLine c depth = (tokens, .done row width below last joined)) :
    last = depthAfterAll (tokens.map Token.spelling) depth := by
  fun_induction scanLine c depth generalizing tokens with
  | case1 c depth kind text next hs _ more ending hscan ih =>
      obtain ⟨rfl, rfl⟩ := Prod.mk.inj h
      exact ih hscan
  | case2 c depth next hs _ ih => exact ih h
  | case3 =>
      simp only [Prod.mk.injEq, LineEnd.done.injEq] at h
      obtain ⟨rfl, -, -, -, rfl, -⟩ := h
      rfl
  | case4 => simp at h

namespace Cursor

-- A line ends joined to the next one if what is left of it says so.
theorem step_joins (h : c.step = .lineEnd joined) : joined = true ↔ Joins c.rest := by
  obtain ⟨hr, rfl⟩ | ⟨⟨more, hr, -⟩, rfl⟩ | ⟨⟨more, hr, hblanks⟩, rfl⟩ := step_lineEnd_inv h
  · simp [hr, not_joins_nil]
  · rw [hr, joins_mark rfl]
    simp
  · rw [hr, joins_mark rfl]
    simp [hblanks]

theorem step_blank_joins {next : Cursor} (h : c.step = .blank next) :
    next.row = c.row ∧ (Joins next.rest ↔ Joins c.rest) := by
  obtain ⟨first, rest, hr, hlex, rfl⟩ := step_blank_inv h
  refine ⟨rfl, ?_⟩
  rw [hr, joins_blank (Lexeme.isBlank_of_ofText hlex), skip, hr]
  rfl

end Cursor

-- A scan ends with a joined line if what follows its tokens on the last row says so. The induction
-- is on the scan. On the row of the cursor, what follows the tokens before is the rest of the line.
theorem scanLine_joins (hl : ∀ line ∈ lines, '\n' ∉ line) (hon : c.On lines)
    (h : scanLine c depth = (tokens, .done row width below last joined)) {column : Nat}
    (hc : c.row = row → (Joins ((rowText lines row).drop column) ↔ Joins c.rest)) :
    joined = true ↔ Joins ((rowText lines row).drop (reachOn row column tokens)) := by
  fun_induction scanLine c depth generalizing tokens column with
  | case1 c depth kind text next hs _ more ending hscan ih =>
      obtain ⟨rfl, rfl⟩ := Prod.mk.inj h
      obtain ⟨hstands, hspot, hnext⟩ := hon.step_token hl hs
      have hfinish := hstands.finish_eq.trans hspot.symm
      rw [reachOn, List.foldl_cons, hstands.sourced, Bool.true_and, hfinish]
      refine ih hnext hscan fun hrow => ?_
      rw [show (next.spot.row == row) = true from beq_iff_eq.mpr hrow, if_pos rfl, ← hnext.rest,
        hrow]
      rfl
  | case2 c depth next hs _ ih =>
      obtain ⟨hrow, hjoins⟩ := Cursor.step_blank_joins hs
      exact ih (hon.step_blank hs).2 h fun hlast => (hc (hrow.symm.trans hlast)).trans hjoins.symm
  | case3 c depth joined' hs =>
      simp only [Prod.mk.injEq, LineEnd.done.injEq] at h
      obtain ⟨rfl, rfl, -, -, -, rfl⟩ := h
      exact (Cursor.step_joins hs).trans (hc rfl).symm
  | case4 => simp at h

end

end TypeStub
