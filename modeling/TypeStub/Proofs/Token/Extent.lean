import TypeStub.Token.Progress

namespace TypeStub

-- Whether the text of such a token comes from the source. Marks of the layout, the end and errors
-- have texts of their own.
def TokenKind.isSourced : TokenKind → Bool
  | endOfFile | newline | indent | dedent | error => false
  | _ => true

theorem TokenKind.isSourced_ofWord (word : Text) : (ofWord word).isSourced = true := by
  rw [ofWord]
  simp only [apply_ite isSourced]
  simp only [isSourced, ite_self]

namespace Lexeme

-- A lexeme that the text has at its head, and that takes no more than the text has. A triple-quoted
-- string has its letters and its opening quotes there.
def Fits (text : Text) : Lexeme → Prop
  | .blank => ∃ c rest, text = c :: rest ∧ Text.isBlank c = true
  | .comment => ∃ rest, text = '#' :: rest ∧ typeCommentLength? rest = none
  | .continuation => ∃ rest, text = '\\' :: rest ∧ rest.all Text.isBlank = true
  | .token kind n => kind.isSourced = true ∧ n ≤ text.length
  | .tripleQuoted n quote => n ≤ 2 ∧ (∀ c ∈ text.take n, isStringPrefix c = true) ∧
      isQuote quote = true ∧ [quote, quote, quote] <+: text.drop n
  | .bad _ => True

theorem length_le_of_startsWith {beginning text : Text} (h : Text.startsWith beginning text = true) :
    beginning.length ≤ text.length :=
  (List.isPrefixOf_iff_prefix.mp h).length_le

theorem closingQuote_le {quote : Char} {text : Text} {n : Nat}
    (h : closingQuote? quote text = some n) : n ≤ text.length := by
  fun_induction closingQuote? quote text generalizing n with
  | case1 => simp at h
  | case2 => simp at h
  | case3 _ rest ih =>
      obtain ⟨m, hm, rfl⟩ := Option.map_eq_some_iff.mp h
      have := ih hm
      simp only [List.length_cons]
      omega
  | case4 =>
      simp only [Option.some.injEq] at h
      simp only [List.length_cons]
      omega
  | case5 _ _ _ _ _ ih =>
      obtain ⟨m, hm, rfl⟩ := Option.map_eq_some_iff.mp h
      have := ih hm
      simp only [List.length_cons]
      omega

theorem closingTriple_le {quote : Char} {text : Text} {n : Nat}
    (h : closingTriple? quote text = some n) : n ≤ text.length := by
  fun_induction closingTriple? quote text generalizing n with
  | case1 => simp at h
  | case2 => simp at h
  | case3 _ rest ih =>
      obtain ⟨m, hm, rfl⟩ := Option.map_eq_some_iff.mp h
      have := ih hm
      simp only [List.length_cons]
      omega
  | case4 c rest _ _ hs =>
      obtain rfl := (Option.some.injEq ..).mp h
      exact length_le_of_startsWith hs
  | case5 _ _ _ _ _ ih =>
      obtain ⟨m, hm, rfl⟩ := Option.map_eq_some_iff.mp h
      have := ih hm
      simp only [List.length_cons]
      omega

theorem fits_string {text : Text} {lexeme : Lexeme} (h : string? text = some lexeme) :
    lexeme.Fits text := by
  obtain ⟨letters, quote, rest, rfl, htwo, hletters, hquote, rfl⟩ := string_inv h
  unfold ofQuote
  split
  · rename_i hs
    have hopening : [quote, quote, quote] <+: quote :: rest :=
      List.cons_prefix_cons.mpr ⟨rfl, List.isPrefixOf_iff_prefix.mp hs⟩
    refine ⟨htwo, ?_, hquote, ?_⟩
    · rwa [List.take_left]
    · rwa [List.drop_left]
  · split
    · rename_i n hc
      have hle := closingQuote_le hc
      refine ⟨rfl, ?_⟩
      rw [List.length_append, List.length_cons]
      omega
    · trivial

theorem digitRun_le (isDigit : Char → Bool) (text : Text) : digitRun isDigit text ≤ text.length :=
  (List.takeWhile_prefix _).length_le

theorem fractionLength_le {text : Text} {n : Nat} (h : fractionLength? text = some n) :
    n ≤ text.length := by
  unfold fractionLength? at h
  split at h
  · rename_i rest
    split at h
    · simp at h
    · obtain rfl := (Option.some.injEq ..).mp h
      have := digitRun_le Char.isDigit rest
      simp only [List.length_cons]
      omega
  · simp at h

theorem exponentLength_le {text : Text} {n : Nat} (h : exponentLength? text = some n) :
    n ≤ text.length := by
  unfold exponentLength? at h
  split at h
  · simp at h
  · rename_i mark rest
    split at h
    · dsimp only at h
      split at h
      · obtain rfl := (Option.some.injEq ..).mp h
        generalize hs : (rest.take 1).takeWhile (fun c => c == '+' || c == '-') = signs
        have hsigns : signs.length ≤ rest.length := by
          have hp := (List.takeWhile_prefix (l := rest.take 1)
            (fun c => c == '+' || c == '-')).length_le
          rw [hs, List.length_take] at hp
          omega
        have hrun := digitRun_le Char.isDigit (rest.drop signs.length)
        rw [List.length_drop] at hrun
        simp only [List.length_cons]
        omega
      · simp at h
    · simp at h

theorem suffixLength_le (text : Text) : suffixLength text ≤ text.length := by
  cases text with
  | nil => exact Nat.le_refl _
  | cons c rest =>
      unfold suffixLength
      simp only [List.length_cons]
      split <;> omega

theorem fits_number (text : Text) : (number text).Fits text := by
  unfold number
  split
  · rename_i hbase
    -- The base takes two bytes, which are there.
    have htwo : 2 ≤ text.length := by
      unfold opensBase at hbase
      split at hbase
      · simp only [List.length_cons]; omega
      · simp at hbase
    have hrun := digitRun_le isHexDigit (text.drop 2)
    have hsuffix := suffixLength_le (text.drop (2 + digitRun isHexDigit (text.drop 2)))
    simp only [List.length_drop] at hrun hsuffix
    exact ⟨rfl, by omega⟩
  · have hwhole := digitRun_le Char.isDigit text
    have hfraction : (fractionLength? (text.drop (digitRun Char.isDigit text))).getD 0 ≤
        text.length - digitRun Char.isDigit text := by
      cases hf : fractionLength? (text.drop (digitRun Char.isDigit text)) with
      | none => exact Nat.zero_le _
      | some n => simpa using fractionLength_le hf
    generalize hsig : digitRun Char.isDigit text +
      (fractionLength? (text.drop (digitRun Char.isDigit text))).getD 0 = significand
    have hexponent : (exponentLength? (text.drop significand)).getD 0 ≤
        text.length - significand := by
      cases he : exponentLength? (text.drop significand) with
      | none => exact Nat.zero_le _
      | some n => simpa using exponentLength_le he
    dsimp only
    rw [hsig]
    split
    · have hsuffix := suffixLength_le (text.drop (digitRun Char.isDigit text))
      rw [List.length_drop] at hsuffix
      exact ⟨rfl, by omega⟩
    · exact ⟨rfl, by omega⟩

theorem fits_quotedName {rest : Text} {lexeme : Lexeme} (first : Char)
    (h : quotedName? rest = some lexeme) : lexeme.Fits (first :: rest) := by
  simp only [quotedName?] at h
  split at h
  · rename_i hlength
    obtain rfl := (Option.some.injEq ..).mp h
    exact ⟨rfl, by rw [List.length_cons]; omega⟩
  · simp at h

theorem fits_word (text : Text) : (word text).Fits text :=
  ⟨TokenKind.isSourced_ofWord _, (List.takeWhile_prefix _).length_le⟩

theorem fits_symbol (first : Char) (rest : Text) : (symbol first rest).Fits (first :: rest) := by
  unfold symbol
  split
  all_goals first
    | trivial
    | exact ⟨rfl, by simp⟩

-- What is found at the head of a text is there.
theorem fits_ofText (first : Char) (rest : Text) :
    (ofText first rest).Fits (first :: rest) := by
  unfold ofText
  split
  · rename_i hb
    exact ⟨first, rest, rfl, hb⟩
  split
  · rename_i hhash
    split
    · rename_i n hcomment
      simp only [typeCommentLength?] at hcomment
      split at hcomment
      · rename_i hs
        have hle : 5 ≤ (rest.drop _).length := length_le_of_startsWith hs
        rw [List.length_drop] at hle
        obtain rfl := (Option.some.injEq ..).mp hcomment
        exact ⟨rfl, by rw [List.length_cons]; omega⟩
      · simp at hcomment
    · rename_i hplain
      exact ⟨rest, by rw [hhash], hplain⟩
  split
  · rename_i hback
    unfold backslash
    split
    · rename_i hblanks
      exact ⟨rest, by rw [hback], hblanks⟩
    · trivial
  split
  · rename_i hs
    exact fits_string hs
  split
  · exact fits_number (first :: rest)
  split
  · cases hq : quotedName? rest with
    | none => trivial
    | some lexeme => exact fits_quotedName first hq
  split
  · exact fits_word (first :: rest)
  · exact fits_symbol first rest

theorem fits_of_ofText {first : Char} {rest : Text} {lexeme : Lexeme}
    (h : ofText first rest = lexeme) : lexeme.Fits (first :: rest) :=
  h ▸ fits_ofText first rest

-- The letters and the opening quotes of a triple-quoted string are on its first line.
theorem Fits.opening_le {text : Text} {n : Nat} {quote : Char}
    (h : (tripleQuoted n quote).Fits text) : n + 3 ≤ text.length := by
  have hle := h.2.2.2.length_le
  rw [List.length_drop] at hle
  simp only [List.length_cons, List.length_nil] at hle
  omega

theorem isBlank_of_ofText {first : Char} {rest : Text} (h : ofText first rest = .blank) :
    Text.isBlank first = true := by
  obtain ⟨_, _, heq, hblank⟩ := fits_of_ofText h
  obtain ⟨rfl, rfl⟩ := List.cons.inj heq
  exact hblank

end Lexeme

namespace Cursor

-- A line ends where nothing is left of it, with a comment, or with a backslash that joins it.
theorem step_lineEnd_inv {c : Cursor} {joined : Bool} (h : c.step = .lineEnd joined) :
    c.rest = [] ∧ joined = false ∨
    (∃ more, c.rest = '#' :: more ∧ Lexeme.typeCommentLength? more = none) ∧ joined = false ∨
    (∃ more, c.rest = '\\' :: more ∧ more.all Text.isBlank = true) ∧ joined = true := by
  unfold step at h
  split at h
  · rename_i hr
    exact .inl ⟨hr, ((Step.lineEnd.injEq ..).mp h).symm⟩
  rename_i first rest hr
  rw [hr]
  split at h
  · cases h
  · rename_i hlex
    exact .inr (.inl ⟨Lexeme.fits_of_ofText hlex, ((Step.lineEnd.injEq ..).mp h).symm⟩)
  · rename_i hlex
    exact .inr (.inr ⟨Lexeme.fits_of_ofText hlex, ((Step.lineEnd.injEq ..).mp h).symm⟩)
  · cases h
  · unfold tripleString at h
    split at h <;> cases h
  · cases h

end Cursor

end TypeStub
