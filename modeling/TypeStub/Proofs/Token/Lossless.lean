import TypeStub.Proofs.Token.Kept

namespace TypeStub

-- The tokens of a stream that have their text from the source.
def sourced (tokens : List Token) : List Token := tokens.filter (·.kind.isSourced)

-- A byte of a comment that runs from its hash sign to the end of the line, outside all tokens. The
-- opening of a type comment is a token.
def InComment (lines : List Text) (tokens : List Token) (spot : Spot) : Prop :=
  ∃ column rest, column ≤ spot.column ∧
    (rowText lines spot.row).drop column = '#' :: rest ∧
    Lexeme.typeCommentLength? rest = none ∧
    ∀ place : Spot, place.row = spot.row → column ≤ place.column →
      place.column < (rowText lines spot.row).length → ∀ t ∈ sourced tokens, ¬ t.Covers place

-- A backslash with nothing but blanks to the end of its line.
def JoinsLine (lines : List Text) (spot : Spot) : Prop :=
  ∃ rest, (rowText lines spot.row).drop spot.column = '\\' :: rest ∧ rest.all Text.isBlank = true

section

variable {lines : List Text} {tokens : List Token} {spot last : Spot}

-- A byte of a gap is a blank, or of a comment, or joins its line to the next.
theorem Gap.bytes {a b place : Spot} {c : Char} (h : Gap lines a b) (ha : a ≤ place)
    (hb : place < b) (hbyte : byteAt? lines place = some c)
    (hfree : ∀ t ∈ sourced tokens, ∀ s, a ≤ s → s < b → ¬ t.Covers s) :
    Text.isBlank c = true ∨ InComment lines tokens place ∨ JoinsLine lines place := by
  obtain ⟨row, column⟩ := place
  rw [Spot.le_iff] at ha
  rw [Spot.lt_iff] at hb
  cases h with
  | @blank r start _ hat hblank =>
      dsimp only at ha hb
      obtain rfl : row = r := by omega
      obtain rfl : column = start := by omega
      obtain rfl := Option.some.inj (hat.symm.trans hbyte)
      exact .inl hblank
  | @comment r start rest hdrop hplain =>
      dsimp only at ha hb
      obtain rfl : row = r := by omega
      have hstart : start ≤ column := by omega
      refine .inr (.inl ⟨start, rest, hstart, hdrop, hplain, fun s hrow hge hlt t ht => ?_⟩)
      exact hfree t ht s (Spot.le_iff.mpr (.inr ⟨hrow.symm, hge⟩))
        (Spot.lt_iff.mpr (.inr ⟨hrow, hlt⟩))
  | @continuation r start rest hdrop hblanks =>
      dsimp only at ha hb
      obtain rfl : row = r := by omega
      obtain rfl | hafter : start = column ∨ start < column := by omega
      · exact .inr (.inr ⟨rest, hdrop, hblanks⟩)
      · -- What follows the backslash is blank.
        have hcolumn : column = start + (column - start - 1 + 1) := by omega
        rw [byteAt?, hcolumn, ← List.getElem?_drop, hdrop, List.getElem?_cons_succ] at hbyte
        exact .inl (List.all_eq_true.mp hblanks c (List.mem_of_getElem? hbyte))
  | @lineEnd r =>
      dsimp only at ha hb
      obtain rfl : row = r := by omega
      have hpast : (rowText lines row).length ≤ column := by omega
      have hnone : byteAt? lines ⟨row, column⟩ = none := List.getElem?_eq_none hpast
      exact absurd (hbyte.symm.trans hnone) (by simp)

end

end TypeStub
