import Mathlib.Data.Prod.Lex
import Mathlib.Order.Lattice
import TypeStub.Proofs.Token.Extent
import TypeStub.Token.Stream

namespace TypeStub

-- Where a byte of a source stands: its row and its column, both from zero. Spots are ordered as
-- their bytes are.
@[ext] structure Spot where
  row : Nat
  column : Nat
  deriving DecidableEq

namespace Spot

instance : LinearOrder Spot :=
  LinearOrder.lift' (fun s : Spot => toLex (s.row, s.column)) fun a b h => by
    have hpair : (a.row, a.column) = (b.row, b.column) := toLex.injective h
    obtain ⟨hr, hc⟩ := Prod.mk.inj hpair
    exact Spot.ext hr hc

theorem le_iff {a b : Spot} : a ≤ b ↔ a.row < b.row ∨ a.row = b.row ∧ a.column ≤ b.column :=
  Prod.Lex.toLex_le_toLex

theorem lt_iff {a b : Spot} : a < b ↔ a.row < b.row ∨ a.row = b.row ∧ a.column < b.column :=
  Prod.Lex.toLex_lt_toLex

-- The spot after a text that stands here. A newline in it goes on to the next row.
def past (spot : Spot) : Text → Spot
  | [] => spot
  | c :: rest =>
      if c = '\n' then past ⟨spot.row + 1, 0⟩ rest else past ⟨spot.row, spot.column + 1⟩ rest

theorem past_append (text more : Text) : ∀ spot : Spot,
    spot.past (text ++ more) = (spot.past text).past more := by
  induction text with
  | nil => exact fun _ => rfl
  | cons c rest ih =>
      intro spot
      by_cases hc : c = '\n' <;> simp [past, hc, ih]

-- A text on one line moves along the line by its length.
theorem past_line {text : Text} (h : '\n' ∉ text) : ∀ spot : Spot,
    spot.past text = ⟨spot.row, spot.column + text.length⟩ := by
  induction text with
  | nil => exact fun _ => rfl
  | cons c rest ih =>
      intro spot
      have hc : c ≠ '\n' := fun he => h (by simp [he])
      have hrest : '\n' ∉ rest := fun hm => h (List.mem_cons_of_mem _ hm)
      rw [past, if_neg hc, ih hrest, List.length_cons]
      exact Spot.ext rfl (by dsimp only; omega)

theorem lt_past {text : Text} (h : text ≠ []) (spot : Spot) : spot < spot.past text := by
  have hle : ∀ (rest : Text) (s : Spot), s ≤ s.past rest := by
    intro rest
    induction rest with
    | nil => exact fun s => le_refl s
    | cons c rest ih =>
        intro s
        rw [past]
        split
        · exact le_trans (le_iff.mpr (by dsimp only; omega)) (ih _)
        · exact le_trans (le_iff.mpr (by dsimp only; omega)) (ih _)
  obtain ⟨c, rest, rfl⟩ := List.exists_cons_of_ne_nil h
  rw [past]
  split
  · exact lt_of_lt_of_le (lt_iff.mpr (by dsimp only; omega)) (hle rest _)
  · exact lt_of_lt_of_le (lt_iff.mpr (by dsimp only; omega)) (hle rest _)

end Spot

-- The line of a row. Below the last line there is nothing.
def rowText (lines : List Text) (row : Nat) : Text := lines.getD row []

theorem rowText_eq {lines : List Text} {row : Nat} (h : row < lines.length) :
    rowText lines row = lines[row] := by
  simp [rowText, List.getD_eq_getElem?_getD, h]

def byteAt? (lines : List Text) (spot : Spot) : Option Char :=
  (rowText lines spot.row)[spot.column]?

-- What a source says from a spot on, its lines joined by newlines.
def textFrom (lines : List Text) (spot : Spot) : Text :=
  match lines.drop spot.row with
  | [] => []
  | line :: below => Text.joinWith "\n" (line.drop spot.column :: below)

namespace Token

-- The first byte of a token, and the spot after its last one.
def start (t : Token) : Spot := ⟨t.line - 1, t.column - 1⟩

def finish (t : Token) : Spot := t.start.past t.text

def Covers (t : Token) (spot : Spot) : Prop := t.start ≤ spot ∧ spot < t.finish

end Token

namespace Cursor

def spot (c : Cursor) : Spot := ⟨c.row, c.column⟩

-- The text ahead, to the end of the source.
def ahead (c : Cursor) : Text := Text.joinWith "\n" (c.rest :: c.below)

-- A cursor that stands in a source.
structure On (lines : List Text) (c : Cursor) : Prop where
  below : lines.drop (c.row + 1) = c.below
  row : c.row < lines.length
  column : c.column ≤ (rowText lines c.row).length
  rest : (rowText lines c.row).drop c.column = c.rest

section

variable {lines : List Text} {c next : Cursor}

theorem On.lines_drop (h : c.On lines) : lines.drop c.row = rowText lines c.row :: c.below := by
  rw [List.drop_eq_getElem_cons h.row, h.below, rowText_eq h.row]

-- The head of the lines from a row on is the line of that row.
theorem On.ofDrop {row : Nat} {line : Text} {below : List Text}
    (h : lines.drop row = line :: below) : On lines ⟨row, 0, line, below⟩ := by
  have hrow : row < lines.length := by
    have hlength := congrArg List.length h
    rw [List.length_drop, List.length_cons] at hlength
    omega
  rw [List.drop_eq_getElem_cons hrow, List.cons.injEq] at h
  exact ⟨h.2, hrow, Nat.zero_le _, by rw [rowText_eq hrow, h.1]; rfl⟩

theorem On.textFrom (h : c.On lines) : textFrom lines c.spot = c.ahead := by
  simp only [TypeStub.textFrom, spot, h.lines_drop, h.rest]
  rfl

theorem On.byteAt (h : c.On lines) (n : Nat) :
    byteAt? lines ⟨c.row, c.column + n⟩ = c.rest[n]? := by
  rw [byteAt?, ← h.rest, List.getElem?_drop]

theorem On.lineEnd_eq (h : c.On lines) : c.lineEnd = (rowText lines c.row).length := by
  have := h.column
  rw [lineEnd, ← h.rest, List.length_drop]
  omega

theorem On.skip (h : c.On lines) {n : Nat} (hn : n ≤ c.rest.length) : (c.skip n).On lines := by
  have hlength := congrArg List.length h.rest
  rw [List.length_drop] at hlength
  refine ⟨h.below, h.row, ?_, ?_⟩
  · have := h.column
    show c.column + n ≤ (rowText lines c.row).length
    omega
  · show (rowText lines c.row).drop (c.column + n) = c.rest.drop n
    rw [← h.rest, List.drop_drop]

-- No line of the source has a newline in it, so the text of a line ahead has none either.
theorem On.inline (h : c.On lines) (hl : ∀ line ∈ lines, '\n' ∉ line) : '\n' ∉ c.rest := by
  rw [← h.rest, rowText_eq h.row]
  exact fun hm => hl _ (List.getElem_mem h.row) (List.mem_of_mem_drop hm)

theorem ahead_skip (c : Cursor) (n : Nat) : c.rest.take n ++ (c.skip n).ahead = c.ahead := by
  unfold ahead skip
  cases c.below with
  | nil => rw [Text.joinWith_singleton, Text.joinWith_singleton, List.take_append_drop]
  | cons line more =>
      rw [Text.joinWith_cons, Text.joinWith_cons, ← List.append_assoc, ← List.append_assoc,
        List.take_append_drop]

end

end Cursor

end TypeStub
