import TypeStub.Token.Cursor

-- What a step along a line comes from. Every token and every blank takes at least one byte, so a scan
-- along a line comes to an end.
namespace TypeStub

namespace Lexeme

-- At most two letters stand before the quote that makes a string.
theorem string_inv {text : Text} {lexeme : Lexeme} (h : string? text = some lexeme) :
    ∃ letters quote rest, text = letters ++ quote :: rest ∧ letters.length ≤ 2 ∧
      (∀ c ∈ letters, isStringPrefix c = true) ∧ isQuote quote = true ∧
      lexeme = ofQuote letters.length quote rest := by
  simp only [string?] at h
  generalize hl : (text.take 2).takeWhile isStringPrefix = letters at h
  have hletters : letters <+: text :=
    (hl ▸ List.takeWhile_prefix _).trans (List.take_prefix 2 text)
  have htwo : letters.length ≤ 2 := by
    have hle := (hl ▸ List.takeWhile_prefix (l := text.take 2) isStringPrefix).length_le
    rw [List.length_take] at hle
    omega
  have hall : ∀ c ∈ letters, isStringPrefix c = true := by
    rw [← hl]
    exact fun c hc => List.all_eq_true.mp List.all_takeWhile c hc
  split at h
  · rename_i quote rest hdrop
    split at h
    · rename_i hquote
      refine ⟨letters, quote, rest, ?_, htwo, hall, hquote, ((Option.some.injEq ..).mp h).symm⟩
      rw [← hdrop, ← List.prefix_iff_eq_append.mp hletters, List.drop_left]
    · cases h
  · cases h

-- A string token is closed on its line.
theorem string_token_inv {text : Text} {kind : TokenKind} {n : Nat}
    (h : string? text = some (.token kind n)) :
    kind = .string ∧ ∃ letters quote rest m, text = letters ++ quote :: rest ∧
      letters.length ≤ 2 ∧ (∀ c ∈ letters, isStringPrefix c = true) ∧ isQuote quote = true ∧
      closingQuote? quote rest = some m ∧ n = letters.length + 1 + m := by
  obtain ⟨letters, quote, rest, rfl, htwo, hletters, hquote, hlexeme⟩ := string_inv h
  unfold ofQuote at hlexeme
  split at hlexeme
  · cases hlexeme
  split at hlexeme
  · rename_i m hclose
    obtain ⟨rfl, rfl⟩ := (Lexeme.token.injEq ..).mp hlexeme
    exact ⟨rfl, letters, quote, rest, m, rfl, htwo, hletters, hquote, hclose, rfl⟩
  · cases hlexeme

theorem string_length_pos {text : Text} {kind : TokenKind} {n : Nat}
    (h : string? text = some (.token kind n)) : 0 < n := by
  obtain ⟨-, letters, quote, rest, m, -, -, -, -, -, rfl⟩ := string_token_inv h
  omega

theorem digitRun_pos {isDigit : Char → Bool} {c : Char} {rest : Text} (h : isDigit c = true) :
    0 < digitRun isDigit (c :: rest) := by
  simp [digitRun, h]

theorem number_length_pos {first : Char} {rest : Text} {kind : TokenKind} {n : Nat}
    (hs : startsNumber first rest = true) (h : number (first :: rest) = .token kind n) : 0 < n := by
  simp only [startsNumber, Bool.or_eq_true, Bool.and_eq_true, beq_iff_eq] at hs
  simp only [number] at h
  split at h
  · simp only [Lexeme.token.injEq] at h; omega
  · -- A first digit is itself a run; a first point opens a fraction.
    rcases hs with hd | ⟨rfl, hd⟩
    · have : 0 < digitRun Char.isDigit (first :: rest) := digitRun_pos hd
      split at h <;> simp only [Lexeme.token.injEq] at h <;> omega
    · have hw : digitRun Char.isDigit ('.' :: rest) = 0 := rfl
      have hf : fractionLength? ('.' :: rest) = some (1 + digitRun Char.isDigit rest) := by
        cases rest with
        | nil => simp at hd
        | cons d more =>
            have : d ≠ '.' := by rintro rfl; simp at hd
            simp [fractionLength?, this]
      simp only [hw, List.drop_zero, hf] at h
      simp only [Lexeme.token.injEq, Option.getD_some] at h
      omega

theorem word_length_pos {first : Char} {rest : Text} {kind : TokenKind} {n : Nat}
    (hs : Text.isIdentStart first = true) (h : word (first :: rest) = .token kind n) : 0 < n := by
  have hc : Text.isIdentChar first = true := by
    simp only [Text.isIdentStart, Bool.or_eq_true] at hs
    rcases hs with hs | hs <;> simp [Text.isIdentChar, Char.isAlphanum, hs]
  simp only [word, Lexeme.token.injEq] at h
  obtain ⟨-, rfl⟩ := h
  simp [hc]

theorem symbol_length_pos {first : Char} {rest : Text} {kind : TokenKind} {n : Nat}
    (h : symbol first rest = .token kind n) : 0 < n := by
  unfold symbol at h
  split at h <;> first
    | (simp only [Lexeme.token.injEq] at h; omega)
    | simp [illegal] at h

-- What a token at the head of a text has been read as.
inductive ReadAs (first : Char) (rest : Text) (kind : TokenKind) (n : Nat) : Prop
  | typeComment (hf : first = '#') (hk : kind = .typeComment) (hn : typeCommentLength? rest = some n)
  | string (h : string? (first :: rest) = some (.token kind n))
  | number (hs : startsNumber first rest = true) (h : number (first :: rest) = .token kind n)
  | quotedName (hf : first = backtick) (h : quotedName? rest = some (.token kind n))
  | word (hs : Text.isIdentStart first = true) (h : word (first :: rest) = .token kind n)
  | symbol (h : symbol first rest = .token kind n)

theorem readAs_of_ofText {first : Char} {rest : Text} {kind : TokenKind} {n : Nat}
    (h : ofText first rest = .token kind n) : ReadAs first rest kind n := by
  unfold ofText at h
  split at h
  · cases h
  split at h
  · rename_i hhash
    split at h
    · rename_i hcomment
      obtain ⟨rfl, rfl⟩ := (Lexeme.token.injEq ..).mp h
      exact .typeComment hhash rfl hcomment
    · cases h
  split at h
  · unfold backslash at h
    split at h <;> cases h
  split at h
  · rename_i hs
    exact .string (h ▸ hs)
  split at h
  · rename_i hs
    exact .number hs h
  split at h
  · rename_i hquoted
    cases hname : quotedName? rest with
    | none =>
        rw [hname] at h
        cases h
    | some lexeme =>
        rw [hname, Option.getD_some] at h
        exact .quotedName hquoted (h ▸ hname)
  split at h
  · rename_i hs
    exact .word hs h
  · exact .symbol h

theorem typeComment_length_pos {rest : Text} {n : Nat} (h : typeCommentLength? rest = some n) :
    0 < n := by
  simp only [typeCommentLength?] at h
  split at h
  · simp only [Option.some.injEq] at h
    omega
  · simp at h

theorem quotedName_length_pos {rest : Text} {kind : TokenKind} {n : Nat}
    (h : quotedName? rest = some (.token kind n)) : 0 < n := by
  simp only [quotedName?] at h
  split at h
  · simp only [Option.some.injEq, Lexeme.token.injEq] at h
    omega
  · simp at h

theorem ofText_length_pos {first : Char} {rest : Text} {kind : TokenKind} {n : Nat}
    (h : ofText first rest = .token kind n) : 0 < n := by
  cases readAs_of_ofText h with
  | typeComment _ _ hn => exact typeComment_length_pos hn
  | string h => exact string_length_pos h
  | number hs h => exact number_length_pos hs h
  | quotedName _ h => exact quotedName_length_pos h
  | word hs h => exact word_length_pos hs h
  | symbol h => exact symbol_length_pos h

end Lexeme

namespace Cursor

theorem size_skip_lt {c : Cursor} {n : Nat} (hn : 0 < n) (hr : c.rest ≠ []) :
    (c.skip n).size < c.size := by
  have : 0 < c.rest.length := List.length_pos_iff.mpr hr
  simp only [size, skip, List.length_drop]
  omega

theorem size_closeTriple {quote : Char} {row column : Nat} {rest text : Text} {below : List Text}
    {next : Cursor} (h : closeTriple quote row column rest below = some (text, next)) :
    next.size ≤ rest.length + linesSize below ∧
      next.below.length ≤ below.length := by
  induction below generalizing row column rest text with
  | nil =>
      simp only [closeTriple, Option.map_eq_some_iff, Prod.mk.injEq] at h
      obtain ⟨n, -, -, rfl⟩ := h
      simp [size, linesSize]
  | cons line more ih =>
      unfold closeTriple at h
      split at h
      · simp only [Option.some.injEq, Prod.mk.injEq] at h
        obtain ⟨-, rfl⟩ := h
        simp [size, linesSize]
      · simp only [Option.map_eq_some_iff, Prod.mk.injEq, Prod.exists] at h
        obtain ⟨inner, after, hi, -, rfl⟩ := h
        have := ih hi
        simp only [linesSize, List.length_cons]
        omega

theorem tripleString_inv {c next : Cursor} {opening : Nat} {quote : Char} {kind : TokenKind}
    {text : Text} (h : c.tripleString opening quote = .token kind text next) :
    kind = .string ∧ ∃ body, text = c.rest.take opening ++ body ∧
      closeTriple quote c.row (c.column + opening) (c.rest.drop opening) c.below =
        some (body, next) := by
  unfold tripleString at h
  split at h
  · rename_i body after hclose
    obtain ⟨rfl, rfl, rfl⟩ := (Step.token.injEq ..).mp h
    exact ⟨rfl, body, rfl, hclose⟩
  · cases h

theorem tripleString_size {c next : Cursor} {opening : Nat} {quote : Char} {kind : TokenKind}
    {text : Text} (ho : 0 < opening) (hr : c.rest ≠ [])
    (h : c.tripleString opening quote = .token kind text next) :
    next.size < c.size ∧ next.below.length ≤ c.below.length := by
  obtain ⟨-, _, -, hclose⟩ := tripleString_inv h
  have hb := size_closeTriple hclose
  have hp : 0 < c.rest.length := List.length_pos_iff.mpr hr
  rw [List.length_drop] at hb
  refine ⟨?_, hb.2⟩
  simp only [size] at hb ⊢
  omega

theorem tripleString_ne_blank (c next : Cursor) (opening : Nat) (quote : Char) :
    c.tripleString opening quote ≠ .blank next := by
  simp only [tripleString]
  split <;> simp

-- A step to a token takes it from the line, or reads a string that may go over several lines.
theorem step_token_inv {c next : Cursor} {kind : TokenKind} {text : Text}
    (h : c.step = .token kind text next) : ∃ first rest, c.rest = first :: rest ∧
      ((∃ n, Lexeme.ofText first rest = .token kind n ∧ text = c.rest.take n ∧ next = c.skip n) ∨
        ∃ n quote, Lexeme.ofText first rest = .tripleQuoted n quote ∧
          c.tripleString (n + 3) quote = .token kind text next) := by
  unfold step at h
  split at h
  · cases h
  rename_i first rest hr
  refine ⟨first, rest, hr, ?_⟩
  split at h
  · cases h
  · cases h
  · cases h
  · rename_i n hlex
    obtain ⟨rfl, rfl, rfl⟩ := (Step.token.injEq ..).mp h
    exact .inl ⟨n, hlex, rfl, rfl⟩
  · rename_i n quote hlex
    exact .inr ⟨n, quote, hlex, h⟩
  · cases h

theorem step_of_token {c : Cursor} {first : Char} {rest : Text} {kind : TokenKind} {n : Nat}
    (hr : c.rest = first :: rest) (hlex : Lexeme.ofText first rest = .token kind n) :
    c.step = .token kind (c.rest.take n) (c.skip n) := by
  simp only [step, hr, hlex]

theorem step_of_tripleQuoted {c : Cursor} {first : Char} {rest : Text} {n : Nat} {quote : Char}
    (hr : c.rest = first :: rest) (hlex : Lexeme.ofText first rest = .tripleQuoted n quote) :
    c.step = c.tripleString (n + 3) quote := by
  simp only [step, hr, hlex]

theorem step_blank_inv {c next : Cursor} (h : c.step = .blank next) :
    ∃ first rest, c.rest = first :: rest ∧ Lexeme.ofText first rest = .blank ∧
      next = c.skip 1 := by
  unfold step at h
  split at h
  · cases h
  rename_i first rest hr
  split at h
  · rename_i hlex
    obtain rfl := (Step.blank.injEq ..).mp h
    exact ⟨first, rest, hr, hlex, rfl⟩
  · cases h
  · cases h
  · cases h
  · exact absurd h (tripleString_ne_blank _ _ _ _)
  · cases h

theorem step_token_size {c next : Cursor} {kind : TokenKind} {text : Text}
    (h : c.step = .token kind text next) :
    next.size < c.size ∧ next.below.length ≤ c.below.length := by
  obtain ⟨first, rest, hr, ⟨n, hlex, -, rfl⟩ | ⟨n, quote, -, htriple⟩⟩ := step_token_inv h
  · exact ⟨size_skip_lt (Lexeme.ofText_length_pos hlex) (by simp [hr]), Nat.le_refl _⟩
  · exact tripleString_size (Nat.succ_pos _) (by simp [hr]) htriple

theorem step_blank_size {c next : Cursor} (h : c.step = .blank next) :
    next.size < c.size ∧ next.below = c.below := by
  obtain ⟨first, rest, hr, -, rfl⟩ := step_blank_inv h
  exact ⟨size_skip_lt Nat.one_pos (by simp [hr]), rfl⟩

end Cursor

end TypeStub
