import TypeStub.Proofs.Token.Shown

-- The line and column that a token keeps, in 32 bits each.
namespace TypeStub

-- A token whose numbers are kept as they are.
structure Token.Fits (t : Token) : Prop where
  line : t.line < 2147483648
  column : t.column < 2147483648

-- A place whose numbers, which count from one, are those of a spot.
structure Place.Names (place : Place) (spot : Spot) : Prop where
  line : place.line.toInt = spot.row + 1
  column : place.column.toInt = spot.column + 1

theorem toInt_ofNat_iff {n : Nat} : (Int32.ofNat n).toInt = n ↔ n < 2147483648 := by
  refine ⟨fun h => ?_, Int32.toInt_ofNat_of_lt⟩
  have hlt := (Int32.ofNat n).toInt_lt
  omega

namespace Token

variable {t u : Token}

theorem Fits.line_eq (h : t.Fits) : t.place.line.toInt = t.line := toInt_ofNat_iff.mpr h.line

end Token

-- A text has at most as many lines as bytes, and none is longer.
theorem splitLines_length (text : Text) : (Text.splitLines text).length ≤ text.length ∧
    ∀ line ∈ Text.splitLines text, line.length ≤ text.length := by
  fun_induction Text.splitLines text with
  | case1 => simp
  | case2 rest ih =>
      refine ⟨Nat.succ_le_succ ih.1, List.forall_mem_cons.mpr ⟨Nat.zero_le _, fun line hl => ?_⟩⟩
      exact Nat.le_succ_of_le (ih.2 line hl)
  | case3 c rest _ hs ih => simp
  | case4 c rest _ line more hs ih =>
      rw [hs] at ih
      obtain ⟨hcount, hlengths⟩ := ih
      obtain ⟨hline, hmore⟩ := List.forall_mem_cons.mp hlengths
      refine ⟨Nat.le_succ_of_le hcount, List.forall_mem_cons.mpr ⟨Nat.succ_le_succ hline, ?_⟩⟩
      exact fun other ho => Nat.le_succ_of_le (hmore other ho)

theorem sourceLines_length (source : Text) : (sourceLines source).length ≤ source.length ∧
    ∀ row, (rowText (sourceLines source) row).length ≤ source.length := by
  obtain ⟨hcount, hlengths⟩ := splitLines_length source
  refine ⟨(List.length_map _).trans_le hcount, fun row => ?_⟩
  cases hrow : (sourceLines source)[row]? with
  | none => simp [rowText, List.getD_eq_getElem?_getD, hrow]
  | some line =>
      obtain ⟨written, hw, rfl⟩ := List.mem_map.mp (List.mem_of_getElem? hrow)
      rw [rowText, List.getD_eq_getElem?_getD, hrow, Option.getD_some]
      refine Nat.le_trans ?_ (hlengths written hw)
      split
      · exact (List.dropLast_prefix _).length_le
      · exact Nat.le_refl _

-- In a source of less than so many bytes every token fits.
theorem tokenize_fits {source : Text} (h : source.length < 2147483647) :
    ∀ t ∈ tokenize (sourceLines source), t.Fits := by
  obtain ⟨hcount, hlengths⟩ := sourceLines_length source
  intro t ht
  have hshown := tokenize_shown source t ht
  have hcounted := tokenize_counted source t ht
  have hrow := hshown.row
  have hcolumn := hshown.column.trans (hlengths _)
  simp only [Token.start] at hrow hcolumn
  exact ⟨by omega, by omega⟩

-- The number of bytes cannot be larger: so many line breaks take the end of the file to the next
-- line.
theorem sourceLines_breaks (n : Nat) :
    sourceLines (List.replicate n '\n') = List.replicate n [] := by
  have hsplit : Text.splitLines (List.replicate n '\n') = List.replicate n [] := by
    induction n with
    | zero => rfl
    | succ n ih => rw [List.replicate_succ, Text.splitLines, if_pos rfl, ih, List.replicate_succ]
  rw [sourceLines, hsplit, List.map_replicate]
  rfl

theorem tokensFrom_breaks (row n : Nat) : tokensFrom row (List.replicate n []) ⟨0, false, []⟩ =
    [⟨.endOfFile, [], row + n + 1, 1⟩] := by
  induction n generalizing row with
  | zero => rw [List.replicate_zero, tokensFrom]; rfl
  | succ n ih =>
      rw [List.replicate_succ, tokensFrom]
      have hstart : lineStart [] ⟨0, false, []⟩ = .ignored := rfl
      rw [hstart]
      dsimp only
      rw [ih, Nat.add_right_comm row 1 n, Nat.add_assoc row n 1]

theorem tokenize_fits_iff (n : Nat) :
    (∀ source : Text, source.length = n → ∀ t ∈ tokenize (sourceLines source), t.Fits) ↔
      n < 2147483647 := by
  refine ⟨fun h => ?_, fun hn source hlength => tokenize_fits (hlength ▸ hn)⟩
  have hbreaks := h (List.replicate n '\n') List.length_replicate ⟨.endOfFile, [], n + 1, 1⟩ (by
    rw [sourceLines_breaks, tokenize, tokensFrom_breaks, Nat.zero_add]
    exact List.mem_singleton_self _)
  exact Nat.lt_of_succ_lt_succ hbreaks.line

end TypeStub
