import Mathlib.Data.Nat.Digits.Lemmas
import TypeStub.Number.Literal
import TypeStub.Token.Lexeme

-- How natural numbers are spelled, and what the spellings are read as.
namespace TypeStub

-- A digit in a base, in either case.
def Digit (base : Nat) (c : Char) (d : Nat) : Prop :=
  d < base ∧ (c = Nat.digitChar d ∨ c = (Nat.digitChar d).toUpper)

-- Digits, the most significant first, with underscores among them.
inductive Spaced (base : Nat) : Text → List Nat → Prop
  | nil : Spaced base [] []
  | digit {c : Char} {d : Nat} {rest : Text} {digits : List Nat} : Digit base c d →
      Spaced base rest digits → Spaced base (c :: rest) (d :: digits)
  | underscore {rest : Text} {digits : List Nat} : Spaced base rest digits →
      Spaced base ('_' :: rest) digits

-- The letters that stand for a base after a zero.
inductive BaseLetter : Nat → Char → Prop
  | binary : BaseLetter 2 'b'
  | binaryUpper : BaseLetter 2 'B'
  | octal : BaseLetter 8 'o'
  | octalUpper : BaseLetter 8 'O'
  | hexadecimal : BaseLetter 16 'x'
  | hexadecimalUpper : BaseLetter 16 'X'

-- A decimal number without leading zeros, an octal number after a zero, or a number in the base of
-- a letter after a zero. Underscores may stand behind the first digit and behind the letter.
inductive Spelled : Nat → Text → Prop
  | decimal {c : Char} {d : Nat} {rest : Text} {digits : List Nat} : Digit 10 c d → 0 < d →
      Spaced 10 rest digits → Spelled (Nat.ofDigits 10 (d :: digits).reverse) (c :: rest)
  | zero {rest : Text} : Spaced 10 rest [] → Spelled 0 ('0' :: rest)
  | octal {rest : Text} {digits : List Nat} : Spaced 8 rest digits → digits ≠ [] →
      Spelled (Nat.ofDigits 8 digits.reverse) ('0' :: rest)
  | based {base : Nat} {letter : Char} {rest : Text} {digits : List Nat} : BaseLetter base letter →
      Spaced base rest digits → digits ≠ [] →
      Spelled (Nat.ofDigits base digits.reverse) ('0' :: letter :: rest)

-- The same, maybe with the suffix of a long integer.
inductive IntSpelling (n : Nat) : Text → Prop
  | plain {text : Text} : Spelled n text → IntSpelling n text
  | long {text : Text} {suffix : Char} : Spelled n text → suffix = 'l' ∨ suffix = 'L' →
      IntSpelling n (text ++ [suffix])

section

variable {base value n d : Nat} {c letter : Char} {text chars suffix : Text} {digits : List Nat}

theorem isDigit_range (h : c.isDigit = true) : 48 ≤ c.toNat ∧ c.toNat ≤ 57 := by
  simpa [Char.isDigit, UInt32.le_iff_toNat_le] using h

theorem digit_cases : ((List.range 16).all fun d =>
    [Nat.digitChar d, (Nat.digitChar d).toUpper].all fun c =>
      Lexeme.isHexDigit c && (c != '_' && c != 'l' && c != 'L') && (10 ≤ d || c.isDigit) &&
        (d == 0 || c != '0') &&
        (List.range 17).all fun base => base ≤ d || digitValue? base c == some d) = true := by
  decide +kernel

-- What is known of a digit, whatever its base.
structure DigitFacts (base : Nat) (c : Char) (d : Nat) : Prop where
  hex : Lexeme.isHexDigit c = true
  bare : c ≠ '_' ∧ c ≠ 'l' ∧ c ≠ 'L'
  decimal : base ≤ 10 → c.isDigit = true
  positive : 0 < d → c ≠ '0'
  value : digitValue? base c = some d

theorem Digit.facts (h : Digit base c d) (hbase : base ≤ 16) : DigitFacts base c d := by
  obtain ⟨hd, hc⟩ := h
  have hmem : c ∈ [Nat.digitChar d, (Nat.digitChar d).toUpper] := by simpa using hc
  have hcases := List.all_eq_true.mp
    (List.all_eq_true.mp digit_cases d (List.mem_range.mpr (by omega))) c hmem
  simp only [Bool.and_eq_true, Bool.or_eq_true, bne_iff_ne, beq_iff_eq, decide_eq_true_eq,
    List.all_eq_true, List.mem_range] at hcases
  obtain ⟨⟨⟨⟨hhex, ⟨hlow, hsmall⟩, hlarge⟩, hdecimal⟩, hpositive⟩, hvalue⟩ := hcases
  exact ⟨hhex, ⟨hlow, hsmall, hlarge⟩, fun hten => hdecimal.resolve_left (by omega),
    fun hpos => hpositive.resolve_left (by omega), (hvalue base (by omega)).resolve_left (by omega)⟩

-- The digits that are left without the underscores.
theorem Spaced.bare (h : Spaced base text digits) (hbase : base ≤ 16) :
    List.Forall₂ (Digit base) (text.filter (· != '_')) digits := by
  induction h with
  | nil => exact .nil
  | digit hd _ ih =>
      rw [List.filter_cons_of_pos (by simpa using (hd.facts hbase).bare.1)]
      exact .cons hd ih
  | underscore _ ih => rwa [List.filter_cons_of_neg (by simp)]

theorem Spaced.mem (h : Spaced base text digits) (hc : c ∈ text) :
    c = '_' ∨ ∃ d, Digit base c d := by
  induction h with
  | nil => cases hc
  | digit hd _ ih =>
      rcases List.mem_cons.mp hc with rfl | hc
      · exact .inr ⟨_, hd⟩
      · exact ih hc
  | underscore _ ih =>
      rcases List.mem_cons.mp hc with rfl | hc
      · exact .inl rfl
      · exact ih hc

theorem Spaced.decimal (h : Spaced base text digits)
    (hbase : base ≤ 10) : ∀ c ∈ text, c.isDigit = true ∨ c = '_' := by
  intro c hc
  obtain rfl | ⟨d, hd⟩ := h.mem hc
  · exact .inr rfl
  · exact .inl ((hd.facts (by omega)).decimal hbase)

theorem foldDigits_eq (h : List.Forall₂ (Digit base) chars digits) (hbase : base ≤ 16)
    (value : Nat) : foldDigits? base value chars =
      some (value * base ^ digits.length + Nat.ofDigits base digits.reverse) := by
  induction h generalizing value with
  | nil => simp [foldDigits?]
  | @cons c d chars digits hd _ ih =>
      rw [foldDigits?, (hd.facts hbase).value]
      dsimp only
      rw [ih, List.reverse_cons, Nat.ofDigits_append, Nat.ofDigits_singleton, List.length_reverse,
        List.length_cons]
      congr 1
      ring

theorem readNat_eq (h : List.Forall₂ (Digit base) chars digits) (hbase : base ≤ 16)
    (hne : digits ≠ []) : readNat? base chars = some (Nat.ofDigits base digits.reverse) := by
  have hchars : chars ≠ [] := by
    rintro rfl
    cases h
    exact hne rfl
  rw [readNat?, if_neg hchars, foldDigits_eq h hbase, Nat.zero_mul, Nat.zero_add]

theorem BaseLetter.le (h : BaseLetter base letter) : base ≤ 16 := by
  cases h <;> decide

-- Neither underscores nor digits are suffixes.
theorem Spaced.unsuffixed (h : Spaced base text digits) (hbase : base ≤ 16) :
    ∀ c ∈ text, c ≠ 'l' ∧ c ≠ 'L' := by
  intro c hc
  obtain rfl | ⟨d, hd⟩ := h.mem hc
  · decide
  · exact (hd.facts hbase).bare.2

theorem Spelled.unsuffixed (h : Spelled n text) : ∀ c ∈ text, c ≠ 'l' ∧ c ≠ 'L' := by
  cases h with
  | decimal hd _ hrest =>
      have hten : 10 ≤ 16 := by decide
      exact List.forall_mem_cons.mpr ⟨(hd.facts hten).bare.2, hrest.unsuffixed hten⟩
  | zero hrest => exact List.forall_mem_cons.mpr ⟨by decide, hrest.unsuffixed (by decide)⟩
  | octal hrest _ => exact List.forall_mem_cons.mpr ⟨by decide, hrest.unsuffixed (by decide)⟩
  | based hletter hrest _ =>
      refine List.forall_mem_cons.mpr ⟨by decide, List.forall_mem_cons.mpr ⟨?_, ?_⟩⟩
      · cases hletter <;> decide
      · exact hrest.unsuffixed hletter.le

theorem Spelled.starts (h : Spelled n text) : ∃ c more, text = c :: more ∧ c.isDigit = true := by
  cases h with
  | decimal hd _ _ => exact ⟨_, _, rfl, (hd.facts (by decide)).decimal (Nat.le_refl 10)⟩
  | zero | octal | based => exact ⟨_, _, rfl, by decide⟩

theorem bareDigits_plain (h : ∀ c ∈ text, c ≠ 'l' ∧ c ≠ 'L') :
    bareDigits text = text.filter (· != '_') := by
  unfold bareDigits
  dsimp only
  split
  · rename_i c hlast
    have hc := h c (List.mem_of_mem_filter (List.mem_of_getLast? hlast))
    rw [if_neg (by simp [hc])]
  · rfl

theorem bareDigits_long (h : c = 'l' ∨ c = 'L') :
    bareDigits (text ++ [c]) = text.filter (· != '_') := by
  have hfilter : (text ++ [c]).filter (· != '_') = text.filter (· != '_') ++ [c] := by
    rw [List.filter_append]
    congr 1
    rcases h with rfl | rfl <;> rfl
  unfold bareDigits
  dsimp only
  rw [hfilter, List.getLast?_concat]
  dsimp only
  rw [if_pos h, List.dropLast_concat]

-- Without a letter of a base, digits are decimal, or octal after a zero.
theorem splitBase_decimal (hc : c ≠ '0') (rest : Text) : splitBase (c :: rest) = (10, c :: rest) := by
  unfold splitBase
  split
  · rename_i heq
    exact absurd (List.cons.inj heq).1 hc
  · rfl

theorem splitBase_octal (hc : c.isDigit = true) (rest : Text) :
    splitBase ('0' :: c :: rest) = (8, c :: rest) := by
  have hletter {letter : Char} (hl : letter.isDigit = false) : c ≠ letter := by
    rintro rfl
    rw [hc] at hl
    cases hl
  simp [splitBase, hletter (show 'x'.isDigit = false by decide),
    hletter (show 'X'.isDigit = false by decide), hletter (show 'o'.isDigit = false by decide),
    hletter (show 'O'.isDigit = false by decide), hletter (show 'b'.isDigit = false by decide),
    hletter (show 'B'.isDigit = false by decide)]

-- A number's digits and their base, as they are told from its spelling.
theorem Spelled.splits (h : Spelled n text) : ∃ base chars,
    splitBase (text.filter (· != '_')) = (base, chars) ∧ readNat? base chars = some n := by
  cases h with
  | @decimal c d rest digits hd hpos hrest =>
      have hten : 10 ≤ 16 := by decide
      have hdigits := (Spaced.digit hd hrest).bare hten
      refine ⟨10, (c :: rest).filter (· != '_'), ?_, readNat_eq hdigits hten (by simp)⟩
      rw [List.filter_cons_of_pos (by simpa using (hd.facts hten).bare.1)]
      exact splitBase_decimal ((hd.facts hten).positive hpos) _
  | @zero rest hrest =>
      have hnone : rest.filter (· != '_') = [] := by
        have hdigits := hrest.bare (by decide)
        generalize rest.filter (· != '_') = chars at hdigits
        cases hdigits
        rfl
      refine ⟨10, ['0'], ?_, by decide⟩
      rw [List.filter_cons_of_pos (by decide), hnone]
      rfl
  | @octal rest digits hrest hne =>
      have height : 8 ≤ 16 := by decide
      have hdigits := hrest.bare height
      refine ⟨8, rest.filter (· != '_'), ?_, readNat_eq hdigits height hne⟩
      rw [List.filter_cons_of_pos (by decide)]
      cases hfilter : rest.filter (· != '_') with
      | nil =>
          rw [hfilter] at hdigits
          cases hdigits
          exact absurd rfl hne
      | cons c chars =>
          rw [hfilter] at hdigits
          cases hdigits with
          | cons hd _ => exact splitBase_octal ((hd.facts height).decimal (by decide)) _
  | @based base letter rest digits hletter hrest hne =>
      refine ⟨base, rest.filter (· != '_'), ?_, readNat_eq (hrest.bare hletter.le) hletter.le hne⟩
      cases hletter <;> rfl

-- A spelling is read as its number, unless that is too large.
theorem IntSpelling.read (h : IntSpelling n text) :
    intLiteral? text = if n < intLimit then some (n : Int) else none := by
  have hsplits {body : Text} (hb : Spelled n body) :
      bareDigits text = body.filter (· != '_') →
        intLiteral? text = if n < intLimit then some (n : Int) else none := by
    intro hbare
    obtain ⟨base, chars, hsplit, hread⟩ := hb.splits
    unfold intLiteral?
    rw [hbare, hsplit]
    dsimp only
    rw [hread]
  cases h with
  | plain hs => exact hsplits hs (bareDigits_plain hs.unsuffixed)
  | long hs hsuffix => exact hsplits hs (bareDigits_long hsuffix)

end

end TypeStub
