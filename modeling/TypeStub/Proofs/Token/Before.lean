import TypeStub.Proofs.Token.Onto

-- What is read of a line does not change when a blank or a colon follows it.
namespace TypeStub

namespace Lexeme

-- What ends the lexeme before it: the end of the line, a blank or a colon.
def Separates (next : Text) : Prop := ∀ c ∈ next.head?, c = ' ' ∨ c = ':'

theorem separates_nil : Separates [] := by simp [Separates]

theorem separates_blank (more : Text) : Separates (' ' :: more) := by simp [Separates]

theorem separates_colon (more : Text) : Separates (':' :: more) := by simp [Separates]

-- A test of single bytes that a blank and a colon fail.
def Fails (p : Char → Bool) : Prop := p ' ' = false ∧ p ':' = false

instance (p : Char → Bool) : Decidable (Fails p) := inferInstanceAs (Decidable (_ ∧ _))

section

variable {next : Text}

theorem Separates.fails (h : Separates next) {p : Char → Bool} (hp : Fails p) :
    ∀ c ∈ next.head?, p c = false := by
  intro c hc
  obtain rfl | rfl := h c hc
  · exact hp.1
  · exact hp.2

theorem Separates.take (h : Separates next) : ∀ n, Separates (next.take n)
  | 0 => separates_nil
  | n + 1 => fun c hc => h c (by cases next <;> simp_all)

theorem takeWhile_before (h : Separates next) {p : Char → Bool} (hp : Fails p) (text : Text) :
    (text ++ next).takeWhile p = text.takeWhile p := by
  induction text with
  | nil =>
      cases next with
      | nil => rfl
      | cons c more => exact List.takeWhile_cons_of_neg (by simp [h.fails hp c rfl])
  | cons c rest ih => rw [List.cons_append, List.takeWhile_cons, List.takeWhile_cons, ih]

theorem head_before (h : Separates next) {p : Char → Bool} (hp : Fails p) (text : Text) :
    (text ++ next).head?.any p = text.head?.any p := by
  cases text with
  | cons c rest => rfl
  | nil =>
      cases next with
      | nil => rfl
      | cons c more => exact h.fails hp c rfl

theorem head_eq_before (h : Separates next) {c : Char} (hblank : c ≠ ' ') (hcolon : c ≠ ':')
    (text : Text) : (text ++ next).head? = some c ↔ text.head? = some c := by
  cases text with
  | cons d rest => rfl
  | nil =>
      refine ⟨fun hc => ?_, fun hc => by cases hc⟩
      obtain rfl | rfl := h c hc
      · exact absurd rfl hblank
      · exact absurd rfl hcolon

theorem startsWith_before (h : Separates next) {beginning : Text}
    (hb : ∀ c ∈ beginning, c ≠ ' ' ∧ c ≠ ':') (text : Text) :
    Text.startsWith beginning (text ++ next) = Text.startsWith beginning text := by
  induction beginning generalizing text with
  | nil => simp [Text.startsWith]
  | cons b more ih =>
      obtain ⟨hfirst, hmore⟩ := List.forall_mem_cons.mp hb
      cases text with
      | cons c rest => exact congrArg (b == c && ·) (ih hmore rest)
      | nil =>
          cases next with
          | nil => rfl
          | cons c rest =>
              have hc : (b == c) = false := by
                obtain rfl | rfl := h c rfl
                · simp [hfirst.1]
                · simp [hfirst.2]
              simp [Text.startsWith, List.isPrefixOf, hc]

theorem closingQuote_before {quote : Char} {text : Text} {n : Nat} (next : Text)
    (h : closingQuote? quote text = some n) : closingQuote? quote (text ++ next) = some n := by
  fun_induction closingQuote? quote text generalizing n with
  | case1 => cases h
  | case2 => cases h
  | case3 d rest ih =>
      obtain ⟨m, hm, rfl⟩ := Option.map_eq_some_iff.mp h
      rw [List.cons_append, List.cons_append, closingQuote?, ih hm, Option.map_some]
  | case4 rest hlone hpair =>
      rw [List.cons_append, closingQuote?, if_pos rfl, h]
      · exact fun hc _ => ne_backslash hlone hpair hc
      · exact fun _ _ hc _ => ne_backslash hlone hpair hc
  | case5 c rest hlone hpair hc ih =>
      obtain ⟨m, hm, rfl⟩ := Option.map_eq_some_iff.mp h
      rw [List.cons_append, closingQuote?, if_neg hc, ih hm, Option.map_some]
      · exact fun hc _ => ne_backslash hlone hpair hc
      · exact fun _ _ hc _ => ne_backslash hlone hpair hc

theorem three_le_closingTriple {quote : Char} {text : Text} {n : Nat}
    (h : closingTriple? quote text = some n) : 3 ≤ n := by
  fun_induction closingTriple? quote text generalizing n with
  | case1 => cases h
  | case2 => cases h
  | case3 d rest ih =>
      obtain ⟨m, hm, rfl⟩ := Option.map_eq_some_iff.mp h
      exact Nat.le_add_right_of_le (ih hm)
  | case4 => exact Nat.le_of_eq ((Option.some.injEq ..).mp h)
  | case5 c rest hlone hpair hs ih =>
      obtain ⟨m, hm, rfl⟩ := Option.map_eq_some_iff.mp h
      exact Nat.le_add_right_of_le (ih hm)

theorem closingTriple_before {quote : Char} {text : Text} {n : Nat} (next : Text)
    (h : closingTriple? quote text = some n) : closingTriple? quote (text ++ next) = some n := by
  fun_induction closingTriple? quote text generalizing n with
  | case1 => cases h
  | case2 => cases h
  | case3 d rest ih =>
      obtain ⟨m, hm, rfl⟩ := Option.map_eq_some_iff.mp h
      rw [List.cons_append, List.cons_append, closingTriple?, ih hm, Option.map_some]
  | case4 c rest hlone hpair hs =>
      have hstarts : Text.startsWith [quote, quote, quote] (c :: (rest ++ next)) = true :=
        List.isPrefixOf_iff_prefix.mpr
          ((List.isPrefixOf_iff_prefix.mp hs).trans (List.prefix_append (c :: rest) next))
      rw [List.cons_append, closingTriple_cons (ne_backslash hlone hpair), if_pos hstarts, h]
  | case5 c rest hlone hpair hs ih =>
      obtain ⟨m, hm, rfl⟩ := Option.map_eq_some_iff.mp h
      have hlong : [quote, quote, quote].length ≤ (c :: rest).length := by
        have hle := closingTriple_le hm
        have hthree := three_le_closingTriple hm
        simp only [List.length_cons, List.length_nil]
        omega
      have hquotes : ¬ Text.startsWith [quote, quote, quote] (c :: (rest ++ next)) = true := by
        intro ht
        refine hs (List.isPrefixOf_iff_prefix.mpr ?_)
        exact List.prefix_of_prefix_length_le (List.isPrefixOf_iff_prefix.mp ht)
          (List.prefix_append (c :: rest) next) hlong
      rw [List.cons_append, closingTriple_cons (ne_backslash hlone hpair), if_neg hquotes, ih hm,
        Option.map_some]

-- A lexeme of some length. Nothing before it keeps the line from going on.
def Sized : Lexeme → Prop
  | .token _ _ => True
  | .tripleQuoted _ _ => True
  | _ => False

theorem ofQuote_before (h : Separates next) {n : Nat} {quote : Char} (hq : isQuote quote = true)
    {rest : Text} (hs : (ofQuote n quote rest).Sized) :
    ofQuote n quote (rest ++ next) = ofQuote n quote rest := by
  have hquotes : ∀ c ∈ [quote, quote], c ≠ ' ' ∧ c ≠ ':' := by
    have hne : quote ≠ ' ' ∧ quote ≠ ':' := by
      constructor <;> rintro rfl <;> exact absurd hq (by decide)
    simp [hne]
  unfold ofQuote at hs ⊢
  rw [startsWith_before h hquotes]
  split
  · rfl
  · rename_i hone
    rw [if_neg hone] at hs
    cases hc : closingQuote? quote rest with
    | none => simp [hc, Sized] at hs
    | some n => rw [closingQuote_before next hc]

-- At most two letters stand before a quote, so that what follows the text is not looked at.
theorem string_before (h : Separates next) {first : Char} {rest : Text}
    (hs : ∀ lexeme, string? (first :: rest) = some lexeme → lexeme.Sized) :
    string? (first :: (rest ++ next)) = string? (first :: rest) := by
  have hletters : ((first :: (rest ++ next)).take 2).takeWhile isStringPrefix =
      ((first :: rest).take 2).takeWhile isStringPrefix := by
    cases rest with
    | cons d more => rfl
    | nil =>
        have hprefix : Fails isStringPrefix := by decide
        exact takeWhile_before (h.take 1) hprefix [first]
  have hlength : (((first :: rest).take 2).takeWhile isStringPrefix).length ≤
      (first :: rest).length :=
    (List.takeWhile_prefix _).length_le.trans (List.length_take_le' 2 _)
  have hdrop := @List.drop_append_of_le_length _ _ next _ hlength
  rw [List.cons_append] at hdrop
  unfold string? at hs ⊢
  dsimp only at hs ⊢
  rw [hletters, hdrop]
  cases hrest : (first :: rest).drop
      (((first :: rest).take 2).takeWhile isStringPrefix).length with
  | nil =>
      cases next with
      | nil => rfl
      | cons c more =>
          have hc : isQuote c = false := h.fails (by decide) c rfl
          simp [hc]
  | cons quote more =>
      rw [hrest] at hs
      dsimp only [List.cons_append] at hs ⊢
      split
      · rename_i hq
        rw [if_pos hq] at hs
        rw [ofQuote_before h hq (hs _ rfl)]
      · rfl

theorem digitRun_before (h : Separates next) {p : Char → Bool} (hp : Fails p) (text : Text) :
    digitRun p (text ++ next) = digitRun p text := by
  have hrun : Fails fun c => p c || c == '_' := by
    obtain ⟨hblank, hcolon⟩ := hp
    exact ⟨by simp [hblank], by simp [hcolon]⟩
  rw [digitRun, takeWhile_before h hrun, ← digitRun]

theorem fails_isDigit : Fails Char.isDigit := by decide

theorem fails_isHexDigit : Fails isHexDigit := by decide

theorem fraction_before (h : Separates next) (text : Text) :
    fractionLength? (text ++ next) = fractionLength? text := by
  cases text with
  | nil =>
      cases next with
      | nil => rfl
      | cons c more => obtain rfl | rfl := h c rfl <;> rfl
  | cons c rest =>
      by_cases hc : c = '.'
      · subst hc
        have hiff := head_eq_before h (c := '.') (by decide) (by decide) rest
        simp only [List.cons_append, fractionLength?, hiff, digitRun_before h fails_isDigit]
      · simp [fractionLength?, hc]

theorem exponent_before (h : Separates next) (text : Text) :
    exponentLength? (text ++ next) = exponentLength? text := by
  cases text with
  | nil =>
      cases next with
      | nil => rfl
      | cons c more => obtain rfl | rfl := h c rfl <;> rfl
  | cons c rest =>
      have hsigns : (((rest ++ next).take 1).takeWhile fun c => c == '+' || c == '-') =
          (rest.take 1).takeWhile fun c => c == '+' || c == '-' := by
        cases rest with
        | cons d more => rfl
        | nil => exact takeWhile_before (h.take 1) (by decide) []
      have hlength : ((rest.take 1).takeWhile fun c => c == '+' || c == '-').length ≤ rest.length :=
        (List.takeWhile_prefix _).length_le.trans (List.length_take_le' 1 rest)
      rw [List.cons_append]
      unfold exponentLength?
      dsimp only
      rw [hsigns, List.drop_append_of_le_length hlength, head_before h fails_isDigit,
        digitRun_before h fails_isDigit]

theorem suffix_before (h : Separates next) (text : Text) :
    suffixLength (text ++ next) = suffixLength text := by
  cases text with
  | nil =>
      cases next with
      | nil => rfl
      | cons c more => obtain rfl | rfl := h c rfl <;> rfl
  | cons c rest => rfl

theorem opensBase_before (h : Separates next) (text : Text) :
    opensBase (text ++ next) = opensBase text := by
  match text with
  | [] =>
      cases next with
      | nil => rfl
      | cons c more => obtain rfl | rfl := h c rfl <;> cases more <;> rfl
  | [c] =>
      cases next with
      | nil => rfl
      | cons d more => obtain rfl | rfl := h d rfl <;> simp [opensBase]
  | c :: d :: rest => rfl

theorem number_before (h : Separates next) (text : Text) :
    number (text ++ next) = number text := by
  have hdrop : ∀ n ≤ text.length, (text ++ next).drop n = text.drop n ++ next :=
    fun n hn => List.drop_append_of_le_length hn
  unfold number
  rw [opensBase_before h]
  split
  · rename_i hbase
    have htwo : 2 ≤ text.length := by
      match text, hbase with
      | _ :: _ :: _, _ => simp
    have hrun := digitRun_le isHexDigit (text.drop 2)
    rw [List.length_drop] at hrun
    dsimp only
    rw [hdrop 2 htwo, digitRun_before h fails_isHexDigit, hdrop _ (by omega), suffix_before h]
  · have hrun := digitRun_le Char.isDigit text
    have hfraction : digitRun Char.isDigit text +
        (fractionLength? (text.drop (digitRun Char.isDigit text))).getD 0 ≤ text.length := by
      cases hf : fractionLength? (text.drop (digitRun Char.isDigit text)) with
      | none => exact hrun
      | some n =>
          have hle := fractionLength_le hf
          rw [List.length_drop] at hle
          simp only [Option.getD_some]
          omega
    dsimp only
    rw [digitRun_before h fails_isDigit, hdrop _ hrun, fraction_before h, suffix_before h,
      hdrop _ hfraction, exponent_before h]

theorem word_before (h : Separates next) (text : Text) : word (text ++ next) = word text := by
  rw [word, takeWhile_before h (by decide), ← word]

theorem symbol_before (h : Separates next) {first : Char} {rest : Text}
    (hs : (symbol first rest).Sized) : symbol first (rest ++ next) = symbol first rest := by
  match rest with
  | [] =>
      cases next with
      | nil => rfl
      | cons c more =>
          unfold symbol at hs ⊢
          obtain rfl | rfl := h c rfl
          · split <;> simp_all [Sized, illegal]
          · split <;> simp_all [Sized, illegal]
  | [c] =>
      cases next with
      | nil => rfl
      | cons d more =>
          unfold symbol at hs ⊢
          obtain rfl | rfl := h d rfl
          · split <;> simp_all [Sized, illegal]
          · split <;> simp_all [Sized, illegal]
  | c :: d :: more =>
      unfold symbol at hs ⊢
      split <;> simp_all [Sized, illegal]

-- A run that ends before the text does not reach what follows the text.
theorem takeWhile_inside {p : Char → Bool} {text : Text}
    (h : (text.takeWhile p).length < text.length) (next : Text) :
    (text ++ next).takeWhile p = text.takeWhile p := by
  rw [List.takeWhile_append, if_neg (Nat.ne_of_lt h)]

theorem typeCommentLength_before {text : Text} {n : Nat} (next : Text)
    (h : typeCommentLength? text = some n) : typeCommentLength? (text ++ next) = some n := by
  unfold typeCommentLength? at h ⊢
  dsimp only at h ⊢
  split at h
  · rename_i hopens
    have hlength := length_le_of_startsWith hopens
    rw [List.length_drop] at hlength
    have hfive : ("type:" : Text).length = 5 := rfl
    have hinside : (text.takeWhile Text.isBlank).length < text.length := by omega
    rw [takeWhile_inside hinside, List.drop_append_of_le_length (Nat.le_of_lt hinside), if_pos]
    · exact h
    · exact List.isPrefixOf_iff_prefix.mpr
        ((List.isPrefixOf_iff_prefix.mp hopens).trans (List.prefix_append ..))
  · cases h

theorem quotedName_before {rest : Text} {lexeme : Lexeme} (next : Text)
    (h : quotedName? rest = some lexeme) : quotedName? (rest ++ next) = some lexeme := by
  unfold quotedName? at h ⊢
  dsimp only at h ⊢
  split at h
  · rename_i hname
    rw [takeWhile_inside hname.2, if_pos]
    · exact h
    · rw [List.length_append]
      omega
  · cases h

theorem ofText_before (h : Separates next) {first : Char} {rest : Text}
    (hs : (ofText first rest).Sized) : ofText first (rest ++ next) = ofText first rest := by
  unfold ofText at hs ⊢
  split
  · rfl
  rename_i hblank
  rw [if_neg hblank] at hs
  split
  · rename_i hhash
    rw [if_pos hhash] at hs
    cases hc : typeCommentLength? rest with
    | none => simp [hc, Sized] at hs
    | some n => rw [typeCommentLength_before next hc]
  rename_i hhash
  rw [if_neg hhash] at hs
  split
  · rename_i hback
    rw [if_pos hback, backslash] at hs
    split at hs <;> cases hs
  rename_i hback
  rw [if_neg hback] at hs
  have hstring : string? (first :: (rest ++ next)) = string? (first :: rest) := by
    refine string_before h fun lexeme hl => ?_
    rwa [hl] at hs
  rw [hstring]
  split
  · rfl
  rename_i hnone
  rw [hnone] at hs
  dsimp only at hs
  have hnumber : startsNumber first (rest ++ next) = startsNumber first rest := by
    rw [startsNumber, head_before h fails_isDigit, ← startsNumber]
  rw [hnumber]
  split
  · exact number_before h (first :: rest)
  rename_i hnumber
  rw [if_neg hnumber] at hs
  split
  · rename_i htick
    rw [if_pos htick] at hs
    cases hq : quotedName? rest with
    | none => simp [hq, illegal, Sized] at hs
    | some lexeme => rw [quotedName_before next hq, Option.getD_some, Option.getD_some]
  rename_i htick
  rw [if_neg htick] at hs
  split
  · exact word_before h (first :: rest)
  · rename_i hstart
    rw [if_neg hstart] at hs
    exact symbol_before h hs

end

end Lexeme

namespace Cursor

-- The same place in a line that goes on, with other lines below it.
def before (tail : Text) (below : List Text) (c : Cursor) : Cursor :=
  { c with rest := c.rest ++ tail, below := below }

section

variable {c next last : Cursor} {tail : Text} {tokens : List Token} {depth inner : Nat}

theorem step_row {kind : TokenKind} {text : Text} (h : c.step = .token kind text next) :
    c.row ≤ next.row := by
  obtain ⟨first, rest, -, ⟨n, -, -, rfl⟩ | ⟨n, quote, -, htriple⟩⟩ := step_token_inv h
  · exact Nat.le_refl c.row
  · obtain ⟨-, _, -, hclose⟩ := tripleString_inv htriple
    exact closeTriple_row hclose

theorem step_of_blank {first : Char} {rest : Text} (hrest : c.rest = first :: rest)
    (hblank : Text.isBlank first = true) : c.step = .blank (c.skip 1) := by
  simp only [step, hrest, Lexeme.ofText, hblank, if_true]

theorem Reads.row_le (h : Reads c depth tokens last inner) : c.row ≤ last.row := by
  induction h with
  | refl => exact Nat.le_refl _
  | token hs _ ih => exact (step_row hs).trans ih
  | blank hs _ ih =>
      obtain ⟨_, _, -, -, rfl⟩ := step_blank_inv hs
      exact ih

theorem tripleString_before (tail : Text) (below : List Text) {n : Nat} {quote : Char}
    {kind : TokenKind} {text : Text} (hn : n ≤ c.rest.length)
    (h : c.tripleString n quote = .token kind text next) (hrow : next.row = c.row) :
    (c.before tail below).tripleString n quote = .token kind text (next.before tail below) := by
  obtain ⟨rfl, body, rfl, hclose⟩ := tripleString_inv h
  cases hn' : Lexeme.closingTriple? quote (c.rest.drop n) with
  | none =>
      cases hbelow : c.below with
      | nil =>
          rw [hbelow, closeTriple, hn'] at hclose
          cases hclose
      | cons line more =>
          rw [hbelow, closeTriple_below hn'] at hclose
          obtain ⟨⟨inner, last⟩, hinner, heq⟩ := Option.map_eq_some_iff.mp hclose
          obtain ⟨-, rfl⟩ := Prod.mk.inj heq
          have hlt := closeTriple_row hinner
          omega
  | some m =>
      rw [closeTriple_here hn'] at hclose
      obtain ⟨rfl, rfl⟩ := Prod.mk.inj ((Option.some.injEq ..).mp hclose)
      have hm := Lexeme.closingTriple_le hn'
      have hlonger := Lexeme.closingTriple_before tail hn'
      simp only [tripleString, before]
      rw [List.drop_append_of_le_length hn, closeTriple_here hlonger]
      simp only [List.take_append_of_le_length hn, List.take_append_of_le_length hm,
        List.drop_append_of_le_length hm]

theorem step_before (ht : Lexeme.Separates tail) (below : List Text) {kind : TokenKind}
    {text : Text} (h : c.step = .token kind text next) (hrow : next.row = c.row) :
    (c.before tail below).step = .token kind text (next.before tail below) := by
  obtain ⟨first, rest, hr, htoken⟩ := step_token_inv h
  have hlonger : (c.before tail below).rest = first :: (rest ++ tail) := by
    rw [before, hr, List.cons_append]
  obtain ⟨n, hlex, rfl, rfl⟩ | ⟨n, quote, hlex, htriple⟩ := htoken
  · have hlength := (hr ▸ Lexeme.fits_of_ofText hlex).2
    rw [← Lexeme.ofText_before ht (by rw [hlex]; trivial)] at hlex
    rw [step_of_token hlonger hlex]
    simp only [skip, before, List.take_append_of_le_length hlength,
      List.drop_append_of_le_length hlength]
  · have hlength := (hr ▸ Lexeme.fits_of_ofText hlex).opening_le
    rw [← Lexeme.ofText_before ht (by rw [hlex]; trivial)] at hlex
    rw [step_of_tripleQuoted hlonger hlex]
    exact tripleString_before tail below hlength htriple hrow

theorem step_blank_before (tail : Text) (below : List Text) (h : c.step = .blank next) :
    (c.before tail below).step = .blank (next.before tail below) := by
  obtain ⟨first, rest, hr, hlex, rfl⟩ := step_blank_inv h
  have hlonger : (c.before tail below).rest = first :: (rest ++ tail) := by
    rw [before, hr, List.cons_append]
  rw [step_of_blank hlonger (Lexeme.isBlank_of_ofText hlex)]
  simp only [skip, before, hr, List.cons_append, List.drop_succ_cons, List.drop_zero]

-- A part of a line reads the same before a separator, whatever is below.
theorem Reads.before (ht : Lexeme.Separates tail) (below : List Text)
    (h : Reads c depth tokens last inner) (hrow : last.row = c.row) :
    Reads (c.before tail below) depth tokens (last.before tail below) inner := by
  induction h with
  | refl c depth => exact .refl _ _
  | @token c next last depth inner kind text tokens hs hafter ih =>
      have hnext : next.row = c.row :=
        Nat.le_antisymm (hrow ▸ hafter.row_le) (step_row hs)
      exact .token (step_before ht below hs hnext) (ih (hrow.trans hnext.symm))
  | @blank c next last depth inner tokens hs hafter ih =>
      obtain ⟨_, _, -, -, rfl⟩ := step_blank_inv hs
      exact .blank (step_blank_before tail below hs) (ih hrow)

end

end Cursor

end TypeStub
