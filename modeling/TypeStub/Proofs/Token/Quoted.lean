import Mathlib.Algebra.Ring.Parity
import Mathlib.Order.Bounds.Basic
import TypeStub.Grammar.Literal
import TypeStub.Proofs.Token.Account

-- Where the strings of a source end, and what they have between their quotes.
namespace TypeStub

-- Whether a backslash hides a byte. Backslashes in a row hide one another in pairs, so the byte
-- after them is hidden if their number is odd.
def Hidden (text : Text) (place : Nat) : Prop :=
  Odd ((text.take place).reverse.takeWhile (· == '\\')).length

-- Quotes that no backslash hides.
def ClosesAt (quotes text : Text) (place : Nat) : Prop :=
  ¬ Hidden text place ∧ quotes <+: text.drop place

-- A string: at most two letters, quotes, a body, and the same quotes, which are the first ones after
-- the opening quotes that no backslash hides.
structure Quoted (letters quotes body text : Text) : Prop where
  text_eq : text = letters ++ quotes ++ body ++ quotes
  length_le : letters.length ≤ 2
  mem_letters : ∀ c ∈ letters, c ∈ ("bBrRuU" : Text)
  exists_quote : ∃ quote, (quote = '"' ∨ quote = '\'') ∧
    (quotes = [quote] ∨ quotes = [quote, quote, quote])
  isLeast : IsLeast {place | ClosesAt quotes (body ++ quotes) place} body.length

section

variable {quotes text rest : Text} {c : Char} {place : Nat}

theorem not_hidden_zero : ¬ Hidden text 0 := by simp [Hidden]

theorem hidden_one : Hidden ('\\' :: rest) 1 := by simp [Hidden]

-- A byte that is no backslash keeps apart what is before and after it.
theorem hidden_cons (hc : c ≠ '\\') : Hidden (c :: rest) (place + 1) ↔ Hidden rest place := by
  unfold Hidden
  rw [List.take_succ_cons, List.reverse_cons, List.takeWhile_append]
  split
  · rename_i hall
    rw [List.takeWhile_cons_of_neg (by simpa using hc), List.append_nil]
    rw [(List.takeWhile_prefix _).eq_of_length hall]
  · rfl

-- A backslash and the byte that it hides, be that a backslash, do not matter to what is after them.
theorem hidden_pair (c : Char) :
    Hidden ('\\' :: c :: rest) (place + 2) ↔ Hidden rest place := by
  have htake : (('\\' :: c :: rest).take (place + 2)).reverse =
      (rest.take place).reverse ++ [c, '\\'] := by simp
  unfold Hidden
  rw [htake, List.takeWhile_append]
  split
  · rename_i hall
    rw [(List.takeWhile_prefix _).eq_of_length hall, List.length_append]
    by_cases hc : c = '\\'
    · subst hc
      have htwo : (['\\', '\\'].takeWhile (· == '\\')).length = 2 := rfl
      rw [htwo, Nat.odd_iff, Nat.odd_iff, Nat.add_mod_right]
    · rw [List.takeWhile_cons_of_neg (by simpa using hc)]
      rfl
  · rfl

-- A search for quotes that passes over a backslash together with the byte after it.
inductive FirstClose (quotes : Text) : Text → Nat → Prop
  | here {text : Text} : quotes <+: text → FirstClose quotes text 0
  | hidden {c : Char} {rest : Text} {place : Nat} : FirstClose quotes rest place →
      FirstClose quotes ('\\' :: c :: rest) (place + 2)
  | other {c : Char} {rest : Text} {place : Nat} : c ≠ '\\' → ¬ quotes <+: c :: rest →
      FirstClose quotes rest place → FirstClose quotes (c :: rest) (place + 1)

-- What such a search finds is the first of the quotes that no backslash hides.
theorem FirstClose.isLeast (hq : ∀ c rest, ¬ quotes <+: '\\' :: c :: rest)
    (h : FirstClose quotes text place) : IsLeast {place | ClosesAt quotes text place} place := by
  induction h with
  | here hprefix => exact ⟨⟨not_hidden_zero, hprefix⟩, fun _ _ => Nat.zero_le _⟩
  | @hidden c rest place _ ih =>
      refine ⟨⟨(hidden_pair c).not.mpr ih.1.1, ih.1.2⟩, fun n hn => ?_⟩
      match n, hn with
      | 0, hn => exact absurd hn.2 (hq c rest)
      | 1, hn => exact absurd hidden_one hn.1
      | n + 2, hn =>
          exact Nat.add_le_add_right (ih.2 ⟨(hidden_pair c).not.mp hn.1, hn.2⟩) 2
  | @other c rest place hc hno _ ih =>
      refine ⟨⟨(hidden_cons hc).not.mpr ih.1.1, ih.1.2⟩, fun n hn => ?_⟩
      match n, hn with
      | 0, hn => exact absurd hn.2 hno
      | n + 1, hn => exact Nat.add_le_add_right (ih.2 ⟨(hidden_cons hc).not.mp hn.1, hn.2⟩) 1

end

theorem TokenKind.ofWord_ne_string (word : Text) : ofWord word ≠ .string := by
  rw [ofWord]
  simp only [apply_ite (· ≠ TokenKind.string), ne_eq, reduceCtorEq, not_false_eq_true, ite_self]

namespace Lexeme

variable {quote : Char} {text : Text} {n : Nat}

-- A string on one line is closed where the search finds its quote.
theorem closingQuote_firstClose (h : closingQuote? quote text = some n) :
    ∃ body, text.take n = body ++ [quote] ∧
      FirstClose [quote] (body ++ [quote]) body.length := by
  fun_induction closingQuote? quote text generalizing n with
  | case1 => simp at h
  | case2 => simp at h
  | case3 c rest ih =>
      obtain ⟨m, hm, rfl⟩ := Option.map_eq_some_iff.mp h
      obtain ⟨body, htake, hfirst⟩ := ih hm
      refine ⟨'\\' :: c :: body, ?_, .hidden hfirst⟩
      rw [List.take_succ_cons, List.take_succ_cons, htake]
      rfl
  | case4 rest =>
      obtain rfl := (Option.some.injEq ..).mp h
      exact ⟨[], rfl, .here (List.prefix_refl _)⟩
  | case5 c rest hlone hpair hc ih =>
      obtain ⟨m, hm, rfl⟩ := Option.map_eq_some_iff.mp h
      obtain ⟨body, htake, hfirst⟩ := ih hm
      have hno : ¬ [quote] <+: c :: (body ++ [quote]) :=
        fun hp => hc (List.cons_prefix_cons.mp hp).1.symm
      refine ⟨c :: body, ?_, .other (ne_backslash hlone hpair) hno hfirst⟩
      rw [List.take_succ_cons, htake]
      rfl

theorem closingTriple_firstClose (h : closingTriple? quote text = some n) :
    ∃ place, n = place + 3 ∧ FirstClose [quote, quote, quote] text place := by
  fun_induction closingTriple? quote text generalizing n with
  | case1 => simp at h
  | case2 => simp at h
  | case3 c rest ih =>
      obtain ⟨m, hm, rfl⟩ := Option.map_eq_some_iff.mp h
      obtain ⟨place, rfl, hfirst⟩ := ih hm
      exact ⟨place + 2, rfl, .hidden hfirst⟩
  | case4 c rest _ _ hs =>
      obtain rfl := (Option.some.injEq ..).mp h
      exact ⟨0, rfl, .here (List.isPrefixOf_iff_prefix.mp hs)⟩
  | case5 c rest hlone hpair hs ih =>
      obtain ⟨m, hm, rfl⟩ := Option.map_eq_some_iff.mp h
      obtain ⟨place, rfl, hfirst⟩ := ih hm
      have hno : ¬ [quote, quote, quote] <+: c :: rest :=
        fun hp => hs (List.isPrefixOf_iff_prefix.mpr hp)
      exact ⟨place + 1, rfl, .other (ne_backslash hlone hpair) hno hfirst⟩

theorem mem_of_isStringPrefix {c : Char} (h : isStringPrefix c = true) : c ∈ ("bBrRuU" : Text) := by
  simpa [isStringPrefix, or_assoc] using h

theorem eq_of_isQuote (h : isQuote quote = true) : quote = '"' ∨ quote = '\'' := by
  simpa [isQuote] using h

theorem not_prefix_backslash (h : isQuote quote = true) (more : Text) (c : Char) (rest : Text) :
    ¬ quote :: more <+: '\\' :: c :: rest := by
  intro hp
  obtain rfl := (List.cons_prefix_cons.mp hp).1
  exact absurd h (by decide)

theorem IsTripleQuoted.quoted (h : IsTripleQuoted text) :
    ∃ letters quotes body, Quoted letters quotes body text := by
  obtain ⟨letters, quote, body, htwo, hletters, hquote, htext, hcloses⟩ := h
  obtain ⟨place, hplace, hfirst⟩ := closingTriple_firstClose hcloses
  obtain rfl : body.length = place := Nat.add_right_cancel hplace
  exact ⟨letters, [quote, quote, quote], body, htext, htwo,
    fun c hc => mem_of_isStringPrefix (hletters c hc), ⟨quote, eq_of_isQuote hquote, .inr rfl⟩,
    hfirst.isLeast (not_prefix_backslash hquote _)⟩

-- A string on one line, which is taken from the head of a text.
theorem string_quoted (h : string? text = some (.token .string n)) :
    ∃ letters quotes body, Quoted letters quotes body (text.take n) := by
  obtain ⟨-, letters, quote, rest, m, rfl, htwo, hletters, hquote, hclose, rfl⟩ :=
    string_token_inv h
  obtain ⟨body, htake, hfirst⟩ := closingQuote_firstClose hclose
  refine ⟨letters, [quote], body, ?_, htwo, fun c hc => mem_of_isStringPrefix (hletters c hc),
    ⟨quote, eq_of_isQuote hquote, .inl rfl⟩, hfirst.isLeast (not_prefix_backslash hquote _)⟩
  rw [Nat.add_assoc, List.take_length_add_append, Nat.add_comm 1, List.take_succ_cons, htake,
    List.append_assoc, List.append_assoc]
  rfl

theorem string?_of_ofText {first : Char} {rest : Text} (h : ofText first rest = .token .string n) :
    string? (first :: rest) = some (.token .string n) := by
  cases readAs_of_ofText h with
  | typeComment _ hk => cases hk
  | string h => exact h
  | number _ h => obtain hk | hk := number_kind h <;> cases hk
  | quotedName _ h => cases quotedName_kind h
  | word _ h => exact absurd ((Lexeme.token.injEq ..).mp h).1 (TokenKind.ofWord_ne_string _)
  | symbol h => exact absurd rfl (symbol_kind h).2

end Lexeme

theorem Cursor.step_quoted {c next : Cursor} {text : Text} (h : c.step = .token .string text next) :
    ∃ letters quotes body, Quoted letters quotes body text := by
  obtain ⟨first, rest, hr, ⟨n, hlex, rfl, -⟩ | ⟨n, quote, hlex, htriple⟩⟩ := step_token_inv h
  · rw [hr]
    exact Lexeme.string_quoted (Lexeme.string?_of_ofText hlex)
  · exact (tripleString_whole (hr ▸ Lexeme.fits_of_ofText hlex) htriple).2.quoted

-- A token that a step along a line has given.
def Token.Scanned (t : Token) : Prop :=
  ∃ c next : Cursor, c.step = .token t.kind t.text next

theorem scanLine_scanned (c : Cursor) (depth : Nat) :
    ∀ t ∈ (scanLine c depth).1, t.Scanned := by
  fun_induction scanLine c depth with
  | case1 c depth kind text next hs _ more last hscan ih =>
      rw [hscan] at ih
      exact List.forall_mem_cons.mpr ⟨⟨c, next, hs⟩, ih⟩
  | case2 c depth next hs _ ih => exact ih
  | case3 => simp
  | case4 => simp

namespace Margin

variable {m next : Margin} {found : List Token}

-- The tokens of a line that are not of the layout.
theorem scanned_line {row column depth : Nat} {line : Text} {below : List Text} {layout : Layout}
    {marks : List TokenKind} {indents : List Nat} {loneComment : Bool} {ending : LineEnd}
    (hstart : lineStart line layout = .scan column marks indents loneComment)
    (hscan : scanLine ⟨row, column, line.drop column, below⟩ depth = (found, ending))
    {more : List Token} (hmore : ∀ t ∈ more, t.kind.isSourced = false) :
    ∀ t ∈ marks.map (markToken row column) ++ (found ++ more),
      t.kind.isSourced = true → t.Scanned := by
  intro t ht hsourced
  rcases List.mem_append.mp ht with ht | ht
  · have hmarks := (LineStart.fits_of_eq hstart).2.marksAt row column t ht
    exact absurd hsourced (by simp [hmarks.unsourced])
  · rcases List.mem_append.mp ht with ht | ht
    · exact scanLine_scanned _ _ t (by rw [hscan]; exact ht)
    · exact absurd hsourced (by simp [hmore t ht])

theorem tokens_scanned (m : Margin) : ∀ t ∈ m.tokens, t.kind.isSourced = true → t.Scanned := by
  refine tokens_induction (motive := fun _ tokens =>
    ∀ t ∈ tokens, t.kind.isSourced = true → t.Scanned) ?_ ?_ m
  · intro m found hstops
    cases hstops with
    | done =>
        intro t ht hsourced
        rcases List.mem_append.mp ht with ht | ht
        · obtain ⟨-, -, rfl⟩ := List.mem_map.mp ht
          cases hsourced
        · obtain rfl := List.mem_singleton.mp ht
          cases hsourced
    | misaligned hstart =>
        intro t ht hsourced
        obtain ⟨-, kept, hshift⟩ := LineStart.fits_of_eq hstart
        have hunsourced : t.kind.isSourced = false := by
          rcases List.mem_append.mp ht with ht | ht
          · exact (hshift.marksAt _ _ t ht).unsourced
          · exact (marksAt_failureTokens _ _ _ t ht).unsourced
        exact absurd hsourced (by simp [hunsourced])
    | failed hstart hscan =>
        exact scanned_line hstart hscan fun t ht => (marksAt_failureTokens _ _ _ t ht).unsourced
  · intro m next found hline ih
    refine List.forall_mem_append.mpr ⟨?_, ih⟩
    cases hline with
    | ignored => simp
    | scanned hstart hscan =>
        refine scanned_line hstart hscan fun t ht => ?_
        unfold lineBreak at ht
        split at ht
        · obtain rfl := List.mem_singleton.mp ht
          rfl
        · cases ht

end Margin

section

variable {letters quotes body text rest : Text} {quote : Char}

-- The quotes of a literal are looked for behind its letters.
theorem unquote_letters (hletters : ∀ c ∈ letters, c ∈ ("bBrRuU" : Text))
    (hquote : quote = '"' ∨ quote = '\'') :
    unquote (letters ++ quote :: rest) =
      let width := if Text.startsWith [quote, quote] rest ∧ 6 ≤ rest.length + 1 then 3 else 1
      ((quote :: rest).drop width).take (rest.length + 1 - 2 * width) := by
  have hplain : ∀ c ∈ ("bBrRuU" : Text), (!(c == '"' || c == '\'')) = true :=
    List.all_eq_true.mp (by decide)
  have hmark : ¬ (!(quote == '"' || quote == '\'')) = true := by
    obtain rfl | rfl := hquote <;> decide
  have hdrop : (letters ++ quote :: rest).dropWhile (fun c => !(c == '"' || c == '\'')) =
      quote :: rest := by
    rw [List.dropWhile_append_of_pos fun c hc => hplain c (hletters c hc)]
    exact List.dropWhile_cons_of_neg hmark
  unfold unquote
  dsimp only
  rw [hdrop]
  rfl

-- One quote is not taken for three: the quote after it would close the string.
theorem unquote_single (hletters : ∀ c ∈ letters, c ∈ ("bBrRuU" : Text))
    (hquote : quote = '"' ∨ quote = '\'')
    (hfirst : IsLeast {place | ClosesAt [quote] (body ++ [quote]) place} body.length) :
    unquote (letters ++ quote :: (body ++ [quote])) = body := by
  have hsingle : ¬ Text.startsWith [quote, quote] (body ++ [quote]) = true := by
    intro hs
    have hp := List.isPrefixOf_iff_prefix.mp hs
    have hclose : ClosesAt [quote] (body ++ [quote]) 0 :=
      ⟨not_hidden_zero, (List.prefix_append [quote] [quote]).trans hp⟩
    have hempty := hfirst.2 hclose
    have hlength := hp.length_le
    rw [List.length_append] at hlength
    simp only [List.length_cons, List.length_nil] at hlength
    omega
  rw [unquote_letters hletters hquote, if_neg fun h => hsingle h.1]
  simp

theorem unquote_triple (hletters : ∀ c ∈ letters, c ∈ ("bBrRuU" : Text))
    (hquote : quote = '"' ∨ quote = '\'') :
    unquote (letters ++ quote :: quote :: quote :: (body ++ [quote, quote, quote])) = body := by
  have htriple : Text.startsWith [quote, quote]
      (quote :: quote :: (body ++ [quote, quote, quote])) = true :=
    List.isPrefixOf_iff_prefix.mpr ⟨_, rfl⟩
  rw [unquote_letters hletters hquote, if_pos ⟨htriple, by simp⟩]
  simp

-- What is read of a string is its body, whatever quotes and escapes that starts or ends with.
theorem unquote_quoted (h : Quoted letters quotes body text) : unquote text = body := by
  obtain ⟨rfl, -, hletters, ⟨quote, hquote, rfl | rfl⟩, hfirst⟩ := h
  · simpa using unquote_single hletters hquote hfirst
  · have htriple : unquote (letters ++ quote :: quote :: quote ::
        (body ++ [quote, quote, quote])) = body := unquote_triple hletters hquote
    simpa using htriple

end

-- A string token is a string, and the parser reads its body.
theorem tokenize_quoted (source : Text) :
    ∀ t ∈ tokenize (sourceLines source), t.kind = .string →
      (∃ letters quotes body, Quoted letters quotes body t.text) ∧
      ∀ letters quotes body, Quoted letters quotes body t.text → unquote t.text = body := by
  intro t ht hk
  obtain ⟨c, next, hstep⟩ := Margin.tokens_scanned (.initial _) t ht (by rw [hk]; rfl)
  rw [hk] at hstep
  exact ⟨Cursor.step_quoted hstep, fun _ _ _ => unquote_quoted⟩

-- A string over two lines, whose body starts and ends with quotes, one of them behind a backslash.
theorem tokenize_quoted_lines :
    let source : Text := "x = bR''''\\\r\n'a\\''''"
    let t : Token := ⟨.string, "bR''''\\\n'a\\''''", 1, 5⟩
    t ∈ tokenize (sourceLines source) ∧ t.kind = .string ∧
      unquote t.text = ("'\\\n'a\\'" : Text) ∧
      (∃ letters quotes body, Quoted letters quotes body t.text) ∧
      ∀ letters quotes body, Quoted letters quotes body t.text → unquote t.text = body := by
  intro source t
  have ht : t ∈ tokenize (sourceLines source) := by decide +kernel
  exact ⟨ht, rfl, by decide, tokenize_quoted source t ht rfl⟩

end TypeStub
