import TypeStub.Proofs.Token.Spot

namespace TypeStub

namespace Lexeme

-- What is left to the last two branches of the search for closing quotes.
theorem ne_backslash {c : Char} {rest : Text} (hlone : c = '\\' → rest = [] → False)
    (hpair : ∀ d more, c = '\\' → rest = d :: more → False) : c ≠ '\\' := by
  intro hc
  cases rest with
  | nil => exact hlone hc rfl
  | cons d more => exact hpair d more hc rfl

theorem closingTriple_cons {quote c : Char} (hc : c ≠ '\\') (rest : Text) :
    closingTriple? quote (c :: rest) =
      if Text.startsWith [quote, quote, quote] (c :: rest) then some 3
      else (closingTriple? quote rest).map (· + 1) := by
  rw [closingTriple?]
  · exact fun h _ => hc h
  · exact fun _ _ h _ => hc h

-- The closing quotes are found as well in the text that ends with them.
theorem closingTriple_take {quote : Char} {text : Text} {n : Nat}
    (h : closingTriple? quote text = some n) : closingTriple? quote (text.take n) = some n := by
  fun_induction closingTriple? quote text generalizing n with
  | case1 => simp at h
  | case2 => simp at h
  | case3 _ rest ih =>
      obtain ⟨m, hm, rfl⟩ := Option.map_eq_some_iff.mp h
      simp only [List.take_succ_cons, closingTriple?, ih hm, Option.map_some]
  | case4 c rest hlone hpair hs =>
      obtain rfl := (Option.some.injEq ..).mp h
      have hquotes : [quote, quote, quote] <+: (c :: rest).take 3 :=
        List.prefix_take_iff.mpr ⟨List.isPrefixOf_iff_prefix.mp hs, Nat.le_refl _⟩
      have hstarts : Text.startsWith [quote, quote, quote] (c :: rest.take 2) = true :=
        List.isPrefixOf_iff_prefix.mpr hquotes
      rw [List.take_succ_cons, closingTriple_cons (ne_backslash hlone hpair), if_pos hstarts]
  | case5 c rest hlone hpair hs ih =>
      obtain ⟨m, hm, rfl⟩ := Option.map_eq_some_iff.mp h
      have hquotes : ¬ Text.startsWith [quote, quote, quote] (c :: rest.take m) = true := by
        intro ht
        have hhead := (List.isPrefixOf_iff_prefix.mp ht).trans
          (List.cons_prefix_cons.mpr ⟨rfl, List.take_prefix m rest⟩)
        exact hs (List.isPrefixOf_iff_prefix.mpr hhead)
      rw [List.take_succ_cons, closingTriple_cons (ne_backslash hlone hpair), if_neg hquotes,
        ih hm, Option.map_some]

theorem prefix_line {beginning line more : Text} (hfree : '\n' ∉ beginning)
    (h : beginning <+: line ++ '\n' :: more) : beginning <+: line := by
  by_cases hlength : beginning.length ≤ line.length
  · exact List.prefix_of_prefix_length_le h (List.prefix_append ..) hlength
  · have hbreak : line ++ ['\n'] <+: line ++ '\n' :: more := ⟨more, by simp⟩
    have hlonger : (line ++ ['\n']).length ≤ beginning.length := by
      rw [List.length_append, List.length_singleton]
      omega
    have hmem := (List.prefix_of_prefix_length_le hbreak h hlonger).subset
      (List.mem_append_right _ (List.mem_singleton_self _))
    exact absurd hmem hfree

-- Nothing on a line closes a string, so the search goes on after its break.
theorem closingTriple_line {quote : Char} {line : Text} (hq : quote ≠ '\n') (more : Text)
    (h : closingTriple? quote line = none) :
    closingTriple? quote (line ++ '\n' :: more) =
      (closingTriple? quote more).map (· + (line.length + 1)) := by
  have hbreak : ¬ Text.startsWith [quote, quote, quote] ('\n' :: more) = true := by
    intro hs
    exact hq (List.cons_prefix_cons.mp (List.isPrefixOf_iff_prefix.mp hs)).1
  fun_induction closingTriple? quote line with
  | case1 => rw [List.nil_append, closingTriple_cons (by decide), if_neg hbreak]; rfl
  | case2 => simp [closingTriple?]
  | case3 c rest ih =>
      rw [List.cons_append, List.cons_append, closingTriple?, ih (Option.map_eq_none_iff.mp h),
        Option.map_map]
      congr 1
  | case4 => simp at h
  | case5 c rest hlone hpair hs ih =>
      have hquotes : ¬ Text.startsWith [quote, quote, quote] (c :: (rest ++ '\n' :: more)) = true := by
        intro ht
        have hfree : '\n' ∉ [quote, quote, quote] := by simp [hq.symm]
        have hhead : [quote, quote, quote] <+: (c :: rest) ++ '\n' :: more :=
          List.isPrefixOf_iff_prefix.mp ht
        exact hs (List.isPrefixOf_iff_prefix.mpr (prefix_line hfree hhead))
      rw [List.cons_append, closingTriple_cons (ne_backslash hlone hpair), if_neg hquotes,
        ih (Option.map_eq_none_iff.mp h), Option.map_map]
      congr 1

-- A text that opens as a triple-quoted string does: at most two prefix letters and three quotes.
def OpensTriple (text : Text) : Prop :=
  ∃ (letters : Text) (quote : Char), letters.length ≤ 2 ∧
    (∀ c ∈ letters, isStringPrefix c = true) ∧ isQuote quote = true ∧
    letters ++ [quote, quote, quote] <+: text

theorem OpensTriple.of_prefix {text more : Text} (h : OpensTriple text) (hp : text <+: more) :
    OpensTriple more := by
  obtain ⟨letters, quote, htwo, hletters, hquote, hopening⟩ := h
  exact ⟨letters, quote, htwo, hletters, hquote, hopening.trans hp⟩

-- A triple-quoted string, whole: prefix letters, three quotes, and a body that goes on to the first
-- three such quotes that no backslash hides.
def IsTripleQuoted (text : Text) : Prop :=
  ∃ (letters : Text) (quote : Char) (body : Text), letters.length ≤ 2 ∧
    (∀ c ∈ letters, isStringPrefix c = true) ∧ isQuote quote = true ∧
    text = letters ++ [quote, quote, quote] ++ body ++ [quote, quote, quote] ∧
    closingTriple? quote (body ++ [quote, quote, quote]) = some (body.length + 3)

theorem IsTripleQuoted.opens {text : Text} (h : IsTripleQuoted text) : OpensTriple text := by
  obtain ⟨letters, quote, body, htwo, hletters, hquote, rfl, -⟩ := h
  refine ⟨letters, quote, htwo, hletters, hquote, body ++ [quote, quote, quote], ?_⟩
  rw [← List.append_assoc]

-- A text that is closed at its end has the quotes there.
theorem closingTriple_end {quote : Char} {text : Text}
    (h : closingTriple? quote text = some text.length) :
    ∃ body, text = body ++ [quote, quote, quote] := by
  suffices hall : ∀ n, closingTriple? quote text = some n → n = text.length →
      ∃ body, text = body ++ [quote, quote, quote] from hall _ h rfl
  clear h
  fun_induction closingTriple? quote text with
  | case1 => intro n h _; simp at h
  | case2 => intro n h _; simp at h
  | case3 d rest ih =>
      intro n h hn
      obtain ⟨m, hm, rfl⟩ := Option.map_eq_some_iff.mp h
      simp only [List.length_cons, Nat.add_right_cancel_iff] at hn
      obtain ⟨body, rfl⟩ := ih m hm hn
      exact ⟨'\\' :: d :: body, rfl⟩
  | case4 c rest _ _ hs =>
      intro n h hn
      obtain rfl := (Option.some.injEq ..).mp h
      have hhead := List.isPrefixOf_iff_prefix.mp hs
      exact ⟨[], (hhead.eq_of_length hn).symm⟩
  | case5 c rest _ _ _ ih =>
      intro n h hn
      obtain ⟨m, hm, rfl⟩ := Option.map_eq_some_iff.mp h
      simp only [List.length_cons, Nat.add_right_cancel_iff] at hn
      obtain ⟨body, rfl⟩ := ih m hm hn
      exact ⟨c :: body, rfl⟩

theorem isStringPrefix_of_isQuote {c : Char} (h : isQuote c = true) : isStringPrefix c = false := by
  simp only [isQuote, Bool.or_eq_true, beq_iff_eq] at h
  obtain rfl | rfl := h
  · decide
  · decide

-- A prefix letter or a quote starts no other lexeme than a string or a word.
theorem ofText_of_string {first : Char} {rest : Text} {lexeme : Lexeme}
    (h : string? (first :: rest) = some lexeme)
    (hfirst : isStringPrefix first = true ∨ isQuote first = true) :
    ofText first rest = lexeme := by
  have hother : Text.isBlank first = false ∧ first ≠ '#' ∧ first ≠ '\\' := by
    simp only [isStringPrefix, isQuote, Bool.or_eq_true, beq_iff_eq] at hfirst
    obtain ((((((rfl | rfl) | rfl) | rfl) | rfl) | rfl) | (rfl | rfl)) := hfirst
    all_goals decide
  unfold ofText
  rw [if_neg (by simp [hother.1]), if_neg hother.2.1, if_neg hother.2.2, h]

theorem string_of_letters {letters more : Text} {quote : Char} (htwo : letters.length ≤ 2)
    (hletters : ∀ c ∈ letters, isStringPrefix c = true) (hquote : isQuote quote = true) :
    string? (letters ++ quote :: quote :: quote :: more) =
      some (.tripleQuoted letters.length quote) := by
  have hstop := isStringPrefix_of_isQuote hquote
  have htake : ((letters ++ quote :: quote :: quote :: more).take 2).takeWhile isStringPrefix =
      letters := by
    match letters, htwo, hletters with
    | [], _, _ => simp [hstop]
    | [a], _, h => simp [h a (by simp), hstop]
    | [a, b], _, h => simp [h a (by simp), h b (by simp)]
  have hdrop : (letters ++ quote :: quote :: quote :: more).drop letters.length =
      quote :: quote :: quote :: more := List.drop_left ..
  have hopens : Text.startsWith [quote, quote] (quote :: quote :: more) = true :=
    List.isPrefixOf_iff_prefix.mpr ⟨more, rfl⟩
  unfold string?
  simp only [htake, hdrop, hquote, if_true, ofQuote, hopens]

-- What opens as a triple-quoted string is taken as one.
theorem ofText_of_opensTriple {first : Char} {rest : Text} (h : OpensTriple (first :: rest)) :
    ∃ n quote, ofText first rest = .tripleQuoted n quote := by
  obtain ⟨letters, quote, htwo, hletters, hquote, more, hsplit⟩ := h
  have hstring : string? (letters ++ quote :: quote :: quote :: more) = _ :=
    string_of_letters htwo hletters hquote
  have htext : letters ++ quote :: quote :: quote :: more = first :: rest := by
    rw [← hsplit, List.append_assoc]
    rfl
  rw [htext] at hstring
  refine ⟨_, _, ofText_of_string hstring ?_⟩
  cases letters with
  | nil => exact .inr ((List.cons.inj htext).1 ▸ hquote)
  | cons a _ => exact .inl ((List.cons.inj htext).1 ▸ hletters a List.mem_cons_self)

end Lexeme

namespace Cursor

variable {quote : Char} {row column : Nat} {rest text : Text} {below : List Text} {next : Cursor}

-- The rest of a string and the text after it make up the text ahead.
theorem closeTriple_ahead (h : closeTriple quote row column rest below = some (text, next)) :
    text ++ next.ahead = Text.joinWith "\n" (rest :: below) := by
  induction below generalizing row column rest text with
  | nil =>
      obtain ⟨n, -, heq⟩ := Option.map_eq_some_iff.mp h
      obtain ⟨rfl, rfl⟩ := Prod.mk.inj heq
      rw [ahead, Text.joinWith_singleton, Text.joinWith_singleton, List.take_append_drop]
  | cons line more ih =>
      unfold closeTriple at h
      split at h
      · rename_i n _
        obtain ⟨rfl, rfl⟩ := Prod.mk.inj ((Option.some.injEq ..).mp h)
        rw [ahead, Text.joinWith_cons, Text.joinWith_cons, ← List.append_assoc,
          ← List.append_assoc, List.take_append_drop]
      · obtain ⟨⟨inner, after⟩, hinner, heq⟩ := Option.map_eq_some_iff.mp h
        obtain ⟨rfl, rfl⟩ := Prod.mk.inj heq
        rw [Text.joinWith_cons, ← ih hinner]
        simp

-- The search ends right after the first closing quotes.
theorem closeTriple_closes (hq : quote ≠ '\n')
    (h : closeTriple quote row column rest below = some (text, next)) :
    Lexeme.closingTriple? quote text = some text.length := by
  induction below generalizing row column rest text with
  | nil =>
      obtain ⟨n, hn, heq⟩ := Option.map_eq_some_iff.mp h
      obtain ⟨rfl, rfl⟩ := Prod.mk.inj heq
      rw [Lexeme.closingTriple_take hn, List.length_take,
        Nat.min_eq_left (Lexeme.closingTriple_le hn)]
  | cons line more ih =>
      unfold closeTriple at h
      split at h
      · rename_i n hn
        obtain ⟨rfl, rfl⟩ := Prod.mk.inj ((Option.some.injEq ..).mp h)
        rw [Lexeme.closingTriple_take hn, List.length_take,
          Nat.min_eq_left (Lexeme.closingTriple_le hn)]
      · rename_i hnone
        obtain ⟨⟨inner, after⟩, hinner, heq⟩ := Option.map_eq_some_iff.mp h
        obtain ⟨rfl, rfl⟩ := Prod.mk.inj heq
        rw [Lexeme.closingTriple_line hq _ hnone, ih hinner, Option.map_some, List.length_append,
          List.length_cons]
        congr 1
        omega

-- The place after a string is where its text ends, and it stands in the source.
theorem closeTriple_on {lines : List Text} (hl : ∀ line ∈ lines, '\n' ∉ line)
    (hon : On lines ⟨row, column, rest, below⟩)
    (h : closeTriple quote row column rest below = some (text, next)) :
    next.spot = Spot.past ⟨row, column⟩ text ∧ next.On lines := by
  -- On the line of the closing quotes the cursor is moved along.
  have hclose : ∀ {column : Nat} {rest : Text} {below : List Text} {row n : Nat},
      On lines ⟨row, column, rest, below⟩ → Lexeme.closingTriple? quote rest = some n →
      Cursor.spot ⟨row, column + n, rest.drop n, below⟩ = Spot.past ⟨row, column⟩ (rest.take n) ∧
        On lines ⟨row, column + n, rest.drop n, below⟩ := by
    intro column rest below row n hon hn
    have hle := Lexeme.closingTriple_le hn
    have hinline : '\n' ∉ rest.take n := fun hm => hon.inline hl (List.mem_of_mem_take hm)
    refine ⟨?_, hon.skip hle⟩
    rw [Spot.past_line hinline, List.length_take, Nat.min_eq_left hle]
    rfl
  induction below generalizing row column rest text with
  | nil =>
      obtain ⟨n, hn, heq⟩ := Option.map_eq_some_iff.mp h
      obtain ⟨rfl, rfl⟩ := Prod.mk.inj heq
      exact hclose hon hn
  | cons line more ih =>
      unfold closeTriple at h
      split at h
      · rename_i n hn
        obtain ⟨rfl, rfl⟩ := Prod.mk.inj ((Option.some.injEq ..).mp h)
        exact hclose hon hn
      · obtain ⟨⟨inner, after⟩, hinner, heq⟩ := Option.map_eq_some_iff.mp h
        obtain ⟨rfl, rfl⟩ := Prod.mk.inj heq
        have hbelow : lines.drop (row + 1) = line :: more := hon.below
        obtain ⟨hspot, hnext⟩ := ih (On.ofDrop hbelow) hinner
        refine ⟨?_, hnext⟩
        rw [hspot, Spot.past_append, Spot.past_line (hon.inline hl)]
        rfl

end Cursor

end TypeStub
