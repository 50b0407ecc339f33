import TypeStub.Grammar.Statement
import TypeStub.Proofs.Grammar.Yields
import TypeStub.Proofs.Number.Spelling
import TypeStub.Proofs.Target.Slice
import TypeStub.Proofs.Token.Moved
import TypeStub.Proofs.Token.Spelling

-- An integer is one token, and the token is read as the integer that it spells.
namespace TypeStub

-- What may follow a number: a blank, a comma, a bracket, or the end of the line.
def EndsNumber (rest : Text) : Prop :=
  ∀ c ∈ rest.head?, c ∈ [' ', '\t', '\x0c', ',', '(', ')', '[', ']']

namespace Lexeme

section

variable {n : Nat} {text body suffix rest tail : Text} {isDigit : Char → Bool}

-- What follows the digits of an integer: maybe a suffix, and then the end of the number.
inductive AfterDigits : Text → Text → Prop
  | none {rest : Text} : EndsNumber rest → AfterDigits [] rest
  | long {suffix : Char} {rest : Text} : suffix = 'l' ∨ suffix = 'L' → EndsNumber rest →
      AfterDigits [suffix] rest

-- Nothing there goes on with the digits, with a fraction or with an exponent.
structure StopsDigits (tail : Text) : Prop where
  hex : ∀ c ∈ tail.head?, isHexDigit c = false ∧ c ≠ '_'
  decimal : ∀ c ∈ tail.head?, c.isDigit = false
  fraction : ∀ c ∈ tail.head?, c ≠ '.'
  exponent : ∀ c ∈ tail.head?, c ≠ 'e' ∧ c ≠ 'E'
  letter : ∀ c ∈ tail.head?, c.isAlpha = true → c = 'l' ∨ c = 'L'

theorem AfterDigits.stops (h : AfterDigits suffix rest) : StopsDigits (suffix ++ rest) := by
  let letters : List Char := [' ', '\t', '\x0c', ',', '(', ')', '[', ']', 'l', 'L']
  have hall : (letters.all fun c => !isHexDigit c && c != '_' && !c.isDigit && c != '.' &&
      (c != 'e' && c != 'E') && (!c.isAlpha || c == 'l' || c == 'L')) = true := by decide
  have hhead : ∀ c ∈ (suffix ++ rest).head?, c ∈ letters := by
    intro c hc
    cases h with
    | none hrest =>
        have hmem := hrest c hc
        simp only [letters, List.mem_cons] at hmem ⊢
        tauto
    | long hsuffix _ =>
        obtain rfl := Option.some.inj hc
        rcases hsuffix with rfl | rfl <;> simp [letters]
  have hfacts : ∀ c ∈ (suffix ++ rest).head?, ((((isHexDigit c = false ∧ c ≠ '_') ∧
      c.isDigit = false) ∧ c ≠ '.') ∧ c ≠ 'e' ∧ c ≠ 'E') ∧
        ((c.isAlpha = false ∨ c = 'l') ∨ c = 'L') := by
    intro c hc
    simpa using List.all_eq_true.mp hall c (hhead c hc)
  exact ⟨fun c hc => (hfacts c hc).1.1.1.1, fun c hc => (hfacts c hc).1.1.1.2,
    fun c hc => (hfacts c hc).1.1.2, fun c hc => (hfacts c hc).1.2, fun c hc halpha => by
      simpa [halpha] using (hfacts c hc).2⟩

theorem AfterDigits.suffixLength_eq (h : AfterDigits suffix rest) :
    suffixLength (suffix ++ rest) = suffix.length := by
  cases h with
  | none hrest =>
      have hno : ¬ (rest.head? = some 'l' ∨ rest.head? = some 'L') := by
        rintro (hl | hl) <;> exact absurd (hrest _ hl) (by decide)
      exact if_neg hno
  | long hsuffix _ => exact if_pos (by simpa using hsuffix)

theorem digitRun_eq (hbody : ∀ c ∈ body, isDigit c = true ∨ c = '_')
    (htail : ∀ c ∈ tail.head?, isDigit c = false ∧ c ≠ '_') :
    digitRun isDigit (body ++ tail) = body.length := by
  rw [digitRun, List.takeWhile_append_of_pos (by simpa using hbody)]
  cases tail with
  | nil => simp
  | cons c more =>
      obtain ⟨hdigit, hbare⟩ := htail c rfl
      rw [List.takeWhile_cons_of_neg (by simp [hdigit, hbare]), List.append_nil]

-- A run of decimal digits, with no letter of a base in it.
theorem number_decimal (hbody : ∀ c ∈ body, c.isDigit = true ∨ c = '_')
    (hopens : opensBase (body ++ (suffix ++ rest)) = false) (htail : AfterDigits suffix rest) :
    number (body ++ (suffix ++ rest)) = .token .int (body.length + suffix.length) := by
  have hstops := htail.stops
  have hrun : digitRun Char.isDigit (body ++ (suffix ++ rest)) = body.length :=
    digitRun_eq hbody fun c hc => ⟨hstops.decimal c hc, (hstops.hex c hc).2⟩
  have hfraction : fractionLength? (suffix ++ rest) = none := by
    unfold fractionLength?
    split
    · rename_i heq
      exact absurd rfl (hstops.fraction '.' (by rw [heq]; rfl))
    · rfl
  have hexponent : exponentLength? (suffix ++ rest) = none := by
    unfold exponentLength?
    split
    · rfl
    · rename_i mark more heq
      have hmark := hstops.exponent mark (by rw [heq]; rfl)
      rw [if_neg (by simp [hmark])]
  unfold number
  rw [hopens, if_neg (by simp)]
  dsimp only
  rw [hrun, List.drop_left, hfraction, Option.getD_none, Nat.add_zero, List.drop_left, hexponent,
    htail.suffixLength_eq]

-- A run of digits behind the letter of a base.
theorem number_based {base : Nat} {letter : Char} (hletter : BaseLetter base letter)
    (hbody : ∀ c ∈ body, isHexDigit c = true ∨ c = '_') (htail : AfterDigits suffix rest) :
    number ('0' :: letter :: (body ++ (suffix ++ rest))) =
      .token .int (body.length + 2 + suffix.length) := by
  have hstops := htail.stops
  have hopens : opensBase ('0' :: letter :: (body ++ (suffix ++ rest))) = true := by
    cases hletter <;> rfl
  have hrun : digitRun isHexDigit (body ++ (suffix ++ rest)) = body.length :=
    digitRun_eq hbody hstops.hex
  unfold number
  rw [hopens, if_pos rfl]
  dsimp only
  have hdrop (k : Nat) (more : Text) : List.drop (2 + k) ('0' :: letter :: more) = more.drop k := by
    rw [Nat.add_comm]
    rfl
  rw [show List.drop 2 ('0' :: letter :: (body ++ (suffix ++ rest))) = body ++ (suffix ++ rest)
    from rfl, hrun, hdrop, List.drop_left, htail.suffixLength_eq, Nat.add_comm 2]

-- Neither digits nor what follows them are letters of a base.
theorem opensBase_zero (hbody : ∀ c ∈ body, c.isDigit = true ∨ c = '_')
    (htail : StopsDigits tail) : opensBase ('0' :: (body ++ tail)) = false := by
  have hletter : ∀ c ∈ (body ++ tail).head?, c.isAlpha = true → c = 'l' ∨ c = 'L' := by
    cases body with
    | nil => exact htail.letter
    | cons d more =>
        intro c hc halpha
        obtain rfl : d = c := Option.some.inj hc
        obtain hdigit | rfl := hbody d List.mem_cons_self
        · have hstart : Text.isIdentStart d = true := by simp [Text.isIdentStart, halpha]
          rw [isDigit_of_identStart hstart] at hdigit
          cases hdigit
        · exact absurd halpha (by decide)
  cases htext : body ++ tail with
  | nil => rfl
  | cons c more =>
      rw [htext] at hletter
      cases halpha : c.isAlpha with
      | false => simp [opensBase, halpha]
      | true => obtain rfl | rfl := hletter c rfl halpha <;> rfl

theorem number_spelled (h : Spelled n body) (htail : AfterDigits suffix rest) :
    number (body ++ (suffix ++ rest)) = .token .int (body.length + suffix.length) := by
  cases h with
  | @decimal c d more digits hd hpos hmore =>
      have hbody := (Spaced.digit hd hmore).decimal (Nat.le_refl 10)
      have hzero : c ≠ '0' := (hd.facts (by decide)).positive hpos
      refine number_decimal hbody ?_ htail
      rw [List.cons_append]
      cases htext : more ++ (suffix ++ rest) with
      | nil => rfl
      | cons letter others => simp [opensBase, hzero]
  | zero hmore =>
      have hs := hmore.decimal (Nat.le_refl 10)
      exact number_decimal (List.forall_mem_cons.mpr ⟨.inl (by decide), hs⟩)
        (opensBase_zero hs htail.stops) htail
  | octal hmore _ =>
      have hs := hmore.decimal (by decide)
      exact number_decimal (List.forall_mem_cons.mpr ⟨.inl (by decide), hs⟩)
        (opensBase_zero hs htail.stops) htail
  | based hletter hmore _ =>
      refine number_based hletter (fun c hc => ?_) htail
      obtain rfl | ⟨d, hd⟩ := hmore.mem hc
      · exact .inr rfl
      · exact .inl (hd.facts hletter.le).hex

-- A text that starts with a digit starts with a number.
theorem ofText_digit {c : Char} (h : c.isDigit = true) (rest : Text) :
    ofText c rest = number (c :: rest) := by
  have hne {other : Char} (hother : other.isDigit = false) : c ≠ other := by
    rintro rfl
    rw [h] at hother
    cases hother
  have hblank : Text.isBlank c = false := by
    simp [Text.isBlank, hne (show ' '.isDigit = false by decide),
      hne (show '\t'.isDigit = false by decide), hne (show '\x0c'.isDigit = false by decide)]
  have hstring : string? (c :: rest) = none := by
    have hprefix : isStringPrefix c = false := by
      simp [isStringPrefix, hne (show 'b'.isDigit = false by decide),
        hne (show 'B'.isDigit = false by decide), hne (show 'r'.isDigit = false by decide),
        hne (show 'R'.isDigit = false by decide), hne (show 'u'.isDigit = false by decide),
        hne (show 'U'.isDigit = false by decide)]
    have hquote : isQuote c = false := by
      simp [isQuote, hne (show '"'.isDigit = false by decide),
        hne (show '\''.isDigit = false by decide)]
    simp [string?, hprefix, hquote]
  have hstart : startsNumber c rest = true := by simp [startsNumber, h]
  simp [ofText, hblank, hne (show '#'.isDigit = false by decide),
    hne (show '\\'.isDigit = false by decide), hstring, hstart]

-- An integer is one token, with all of its text.
theorem ofText_integer (h : IntSpelling n text) (hrest : EndsNumber rest) :
    ∃ c more, text = c :: more ∧ ofText c (more ++ rest) = .token .int text.length := by
  cases h with
  | plain hs =>
      obtain ⟨c, more, rfl, hdigit⟩ := hs.starts
      refine ⟨c, more, rfl, ?_⟩
      rw [ofText_digit hdigit]
      exact number_spelled hs (.none hrest)
  | @long body suffix hs hsuffix =>
      obtain ⟨c, more, rfl, hdigit⟩ := hs.starts
      refine ⟨c, more ++ [suffix], rfl, ?_⟩
      rw [ofText_digit hdigit, List.length_append, List.append_assoc]
      exact number_spelled hs (.long hsuffix hrest)

end

end Lexeme

namespace Grammar

open TypeStub.Parser

section

variable {n : Nat} {t : Token} {type : Parser Expr} {budget : Nat}

-- The parsers that read a number where one stands.
inductive ReadsNumber (type : Parser Expr) : Parser Expr → Prop
  | signed : ReadsNumber type signedNumber
  | default : ReadsNumber type defaultValue
  | assigned : ReadsNumber type (value type)
  | compared (budget : Nat) : ReadsNumber type (conditionValue (budget + 1))

theorem ReadsNumber.eq {p : Parser Expr} (h : ReadsNumber type p)
    (hk : t.kind = .int ∨ t.kind = .minus) (rest : List Token) :
    p (t :: rest) = signedNumber (t :: rest) := by
  cases h with
  | signed => rfl
  | default =>
      rw [defaultValue, peek_bind, List.headD_cons]
      rcases hk with hk | hk <;> rw [hk]
  | assigned =>
      rw [value, peek_bind, List.headD_cons]
      rcases hk with hk | hk <;> rw [hk]
  | compared budget =>
      rw [conditionValue, peek_bind, List.headD_cons]
      rcases hk with hk | hk <;> rw [hk]

-- What is read of an integer token, behind a minus sign or not.
def integerAt (negative : Bool) (t : Token) (rest : List Token) :
    EStateM.Result SyntaxError (List Token) Expr :=
  match intLiteral? t.text with
  | some value => .ok (.int (if negative then -value else value)) rest
  | none => .error (.unexpected .int []) (t :: rest)

theorem signedNumber_int (hk : t.kind = .int) (rest : List Token) :
    signedNumber (t :: rest) = integerAt false t rest := by
  have haccept : accept .minus (t :: rest) = .ok false (t :: rest) := if_neg (by simp [hk])
  simp only [signedNumber, Bind.bind, EStateM.bind, haccept, peek, peekAt, List.getD_cons_zero, hk,
    integerAt]
  cases intLiteral? t.text with
  | some value => rfl
  | none => simp [unexpected, hk]

theorem signedNumber_minus {sign : Token} (hs : sign.kind = .minus) (hk : t.kind = .int)
    (rest : List Token) : signedNumber (sign :: t :: rest) = integerAt true t rest := by
  have haccept : accept .minus (sign :: t :: rest) = .ok true (t :: rest) := if_pos hs
  simp only [signedNumber, Bind.bind, EStateM.bind, haccept, peek, peekAt, List.getD_cons_zero, hk,
    integerAt]
  cases intLiteral? t.text with
  | some value => rfl
  | none => simp [unexpected, hk]

end

end Grammar

open Grammar

-- The values that the reading of a number goes through, digit by digit.
def PartialValue (text : Text) (value : Nat) : Prop :=
  ∃ front back, (splitBase (bareDigits text)).2 = front ++ back ∧
    foldDigits? (splitBase (bareDigits text)).1 0 front = some value

theorem foldDigits_append (base value : Nat) (front back : Text) :
    foldDigits? base value (front ++ back) =
      (foldDigits? base value front).bind (foldDigits? base · back) := by
  induction front generalizing value with
  | nil => rfl
  | cons c front ih =>
      rw [List.cons_append, foldDigits?, foldDigits?]
      cases digitValue? base c with
      | none => rfl
      | some digit => exact ih _

theorem foldDigits_le {base value n : Nat} {digits : Text} (hbase : 0 < base)
    (h : foldDigits? base value digits = some n) : value ≤ n := by
  induction digits generalizing value with
  | nil => exact Nat.le_of_eq (Option.some.inj h)
  | cons c digits ih =>
      rw [foldDigits?] at h
      split at h
      · rename_i digit _
        have hgrows : value * 1 ≤ value * base := Nat.mul_le_mul_left value hbase
        have hrest := ih h
        omega
      · cases h

theorem splitBase_pos (digits : Text) : 0 < (splitBase digits).1 := by
  unfold splitBase
  split
  · split_ifs <;> simp
  · simp

-- No value on the way is greater than the number.
theorem PartialValue.le {n value : Nat} {text : Text} (hn : intLiteral? text = some (n : Int))
    (hvalue : PartialValue text value) : value ≤ n := by
  obtain ⟨front, back, hdigits, hfront⟩ := hvalue
  have hfold : foldDigits? (splitBase (bareDigits text)).1 0 (splitBase (bareDigits text)).2 =
      some n := by
    simp only [intLiteral?, readNat?] at hn
    split at hn
    · rename_i whole hwhole
      split at hn
      · obtain rfl : whole = n := by simpa using hn
        split at hwhole
        · cases hwhole
        · exact hwhole
      · cases hn
    · cases hn
  rw [hdigits, foldDigits_append, hfront, Option.bind_some] at hfold
  exact foldDigits_le (splitBase_pos _) hfold

-- Every spelling of an integer is one token, which is read as the integer, negated behind a minus
-- sign, wherever a number may stand. These integers and all the values on the way to them are
-- 64-bit machine integers. An integer that is none is refused at its token.
theorem integer_read {n : Nat} {text : Text} (h : IntSpelling n text) :
    (∀ (c : Cursor) (rest : Text), c.rest = text ++ rest → EndsNumber rest →
      let next := c.skip text.length
      next.rest = rest ∧ ∀ depth, scanLine c depth =
        (⟨.int, text, c.row + 1, c.column + 1⟩ :: (scanLine next depth).1, (scanLine next depth).2)) ∧
    (∀ (type p : Parser Expr), ReadsNumber type p → ∀ t sign : Token, ∀ rest : List Token,
      t.kind = .int → t.text = text → sign.kind = .minus →
      if n < 2 ^ 63 then
        p (t :: rest) = .ok (.int n) rest ∧ p (sign :: t :: rest) = .ok (.int (-n)) rest
      else
        p (t :: rest) = .error (.unexpected .int []) (t :: rest) ∧
          p (sign :: t :: rest) = .error (.unexpected .int []) (t :: rest)) ∧
    (n < 2 ^ 63 → IsWord n ∧ IsWord (-n) ∧ ∀ value, PartialValue text value → IsWord value) := by
  have hlimit : intLimit = 2 ^ 63 := by decide
  refine ⟨fun c rest hc hrest => ?_, fun type p hp t sign rest hk htext hsign => ?_, fun hn => ?_⟩
  · obtain ⟨first, more, rfl, hlex⟩ := Lexeme.ofText_integer h hrest
    have hstep : c.step = .token .int (first :: more) (c.skip (first :: more).length) := by
      rw [List.cons_append] at hc
      simp only [Cursor.step, hc, hlex]
      rw [← List.cons_append, List.take_left]
    refine ⟨?_, fun depth => scanLine_token hstep⟩
    rw [Cursor.skip, hc, List.drop_left]
  · rw [hp.eq (.inl hk), hp.eq (.inr hsign), signedNumber_int hk, signedNumber_minus hsign hk,
      integerAt, integerAt, htext, h.read, ← hlimit]
    by_cases hn : n < intLimit
    · rw [if_pos hn, if_pos hn]
      exact ⟨rfl, rfl⟩
    · rw [if_neg hn, if_neg hn]
      exact ⟨rfl, rfl⟩
  · have hread : intLiteral? text = some (n : Int) := by rw [h.read, if_pos (hlimit ▸ hn)]
    have hword {k : Int} (hlow : -n ≤ k) (hhigh : k ≤ n) : IsWord k := ⟨by omega, by omega⟩
    refine ⟨hword (by omega) (by omega), hword (by omega) (by omega), fun value hvalue => ?_⟩
    have hle := hvalue.le hread
    exact hword (by omega) (by omega)

-- An octal number with underscores and a suffix before a bracket, and the least integer that is
-- refused.
theorem integer_read_boundary :
    (scanLine ⟨0, 4, "0_1_0L]".toList, []⟩ 0).1.head? = some ⟨.int, "0_1_0L".toList, 1, 5⟩ ∧
    signedNumber [⟨.minus, ['-'], 1, 4⟩, ⟨.int, "0_1_0L".toList, 1, 5⟩] = .ok (.int (-8)) [] ∧
    signedNumber [⟨.int, "0x8000_0000_0000_0000".toList, 1, 5⟩] =
      .error (.unexpected .int []) [⟨.int, "0x8000_0000_0000_0000".toList, 1, 5⟩] := by
  have hdigit {base : Nat} {c : Char} (d : Nat) (hd : d < base) (hc : c = Nat.digitChar d) :
      Digit base c d := ⟨hd, .inl hc⟩
  have height : IntSpelling 8 "0_1_0L".toList := by
    have hspaced : Spaced 8 "_1_0".toList [1, 0] :=
      .underscore (.digit (hdigit 1 (by decide) rfl)
        (.underscore (.digit (hdigit 0 (by decide) rfl) .nil)))
    exact .long (.octal hspaced (by simp)) (.inr rfl)
  have hlarge : IntSpelling (2 ^ 63) "0x8000_0000_0000_0000".toList := by
    have hzeros {rest : Text} {digits : List Nat} (hrest : Spaced 16 rest digits) :
        Spaced 16 ("0000".toList ++ rest) ([0, 0, 0, 0] ++ digits) := by
      have hzero : Digit 16 '0' 0 := hdigit 0 (by decide) rfl
      exact .digit hzero (.digit hzero (.digit hzero (.digit hzero hrest)))
    have hzero : Digit 16 '0' 0 := hdigit 0 (by decide) rfl
    have hspaced : Spaced 16 "8000_0000_0000_0000".toList
        [8, 0, 0, 0, 0, 0, 0, 0, 0, 0, 0, 0, 0, 0, 0, 0] :=
      .digit (hdigit 8 (by decide) rfl) (.digit hzero (.digit hzero (.digit hzero
        (.underscore (hzeros (.underscore (hzeros (.underscore (hzeros .nil)))))))))
    have hvalue : Nat.ofDigits 16 [8, 0, 0, 0, 0, 0, 0, 0, 0, 0, 0, 0, 0, 0, 0, 0].reverse =
        2 ^ 63 := by decide
    rw [← hvalue]
    exact .plain (.based .hexadecimal hspaced (by simp))
  have hends : EndsNumber [']'] := by
    intro c hc
    obtain rfl := Option.some.inj hc
    decide
  refine ⟨?_, ?_, ?_⟩
  · have hscan := (integer_read height).1 ⟨0, 4, "0_1_0L]".toList, []⟩ [']'] rfl hends
    rw [hscan.2 0]
    rfl
  · exact ((integer_read height).2.1 signedNumber signedNumber .signed _ _ [] rfl rfl rfl).2
  · exact ((integer_read hlarge).2.1 signedNumber signedNumber .signed _ ⟨.minus, ['-'], 1, 4⟩ []
      rfl rfl rfl).1

end TypeStub
