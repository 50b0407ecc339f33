import TypeStub.Token.Stream

namespace TypeStub

-- A word that is not reserved, or any characters of one line between backticks.
inductive Identifier : Text → Prop
  | word {first : Char} {rest : Text} (hf : Text.isIdentStart first = true)
      (hr : ∀ c ∈ rest, Text.isIdentChar c = true)
      (hk : TokenKind.ofWord (first :: rest) = .ident) : Identifier (first :: rest)
  | quoted {name : Text} (hne : name ≠ []) (hb : Lexeme.backtick ∉ name) (hl : '\n' ∉ name) :
      Identifier (Lexeme.backtick :: name ++ [Lexeme.backtick])

-- Identifiers with a dot between each and the next.
inductive DottedName : Text → Prop
  | single {name : Text} (h : Identifier name) : DottedName name
  | cons {name rest : Text} (h : Identifier name) (hr : DottedName rest) :
      DottedName (name ++ '.' :: rest)

theorem Identifier.ne_nil {text : Text} (h : Identifier text) : text ≠ [] := by
  cases h <;> simp

theorem Identifier.newline_not_mem {text : Text} (h : Identifier text) : '\n' ∉ text := by
  cases h with
  | word hf hr hk =>
      intro hm
      rcases List.mem_cons.mp hm with rfl | hm
      · exact absurd hf (by decide)
      · exact absurd (hr _ hm) (by decide)
  | quoted hne hb hl => simp [hl, Lexeme.backtick]

-- What the text of a token tells of its kind.
def Token.Lexed (token : Token) : Prop := token.kind = .ident → Identifier token.text

namespace Lexeme

theorem word_ident {first : Char} {rest : Text} {n : Nat}
    (hs : Text.isIdentStart first = true) (h : word (first :: rest) = .token .ident n) :
    Identifier ((first :: rest).take n) := by
  have hc : Text.isIdentChar first = true := by
    simp only [Text.isIdentStart, Bool.or_eq_true] at hs
    rcases hs with hs | hs <;> simp [Text.isIdentChar, Char.isAlphanum, hs]
  simp only [word, Lexeme.token.injEq] at h
  obtain ⟨hk, rfl⟩ := h
  have hp := List.prefix_iff_eq_take.mp
    (List.takeWhile_prefix (l := first :: rest) Text.isIdentChar)
  rw [← hp]
  simp only [List.takeWhile_cons, hc, if_true] at hk ⊢
  refine .word hs (fun c hm => ?_) hk
  exact List.all_eq_true.mp List.all_takeWhile c hm

theorem quotedName_ident {rest : Text} {n : Nat} (hl : '\n' ∉ rest)
    (h : quotedName? rest = some (.token .ident n)) :
    Identifier ((backtick :: rest).take n) := by
  simp only [quotedName?] at h
  split at h
  · rename_i hlen
    obtain ⟨hpos, hlt⟩ := hlen
    simp only [Option.some.injEq, Lexeme.token.injEq, true_and] at h
    subst h
    have hsplit := List.takeWhile_append_dropWhile (p := (· != backtick)) (l := rest)
    cases hd : rest.dropWhile (· != backtick) with
    | nil =>
        rw [hd, List.append_nil] at hsplit
        rw [hsplit] at hlt
        exact absurd hlt (Nat.lt_irrefl _)
    | cons c more =>
        have hc : c = backtick := by
          have := List.head_dropWhile_not (· != backtick) (l := rest) (by simp [hd])
          simpa [hd] using this
        subst hc
        rw [hd] at hsplit
        have ht : (backtick :: rest).take ((rest.takeWhile (· != backtick)).length + 2) =
            backtick :: rest.takeWhile (· != backtick) ++ [backtick] := by
          generalize rest.takeWhile (· != backtick) = name at hsplit ⊢
          subst hsplit
          simp [List.take_append, List.take_of_length_le]
        rw [ht]
        refine .quoted (List.length_pos_iff.mp hpos) (fun hm => ?_) fun hm => ?_
        · simpa using List.all_eq_true.mp List.all_takeWhile backtick hm
        · exact hl ((List.takeWhile_prefix _).subset hm)
  · simp at h

theorem number_kind {text : Text} {kind : TokenKind} {n : Nat} (h : number text = .token kind n) :
    kind = .int ∨ kind = .float := by
  simp only [number] at h
  split at h
  · exact .inl ((Lexeme.token.injEq ..).mp h).1.symm
  split at h
  · exact .inl ((Lexeme.token.injEq ..).mp h).1.symm
  · exact .inr ((Lexeme.token.injEq ..).mp h).1.symm

theorem quotedName_kind {rest : Text} {kind : TokenKind} {n : Nat}
    (h : quotedName? rest = some (.token kind n)) : kind = .ident := by
  simp only [quotedName?] at h
  split at h
  · exact ((Lexeme.token.injEq ..).mp ((Option.some.injEq ..).mp h)).1.symm
  · cases h

-- Operators and punctuation are neither names nor strings.
theorem symbol_kind {first : Char} {rest : Text} {kind : TokenKind} {n : Nat}
    (h : symbol first rest = .token kind n) : kind ≠ .ident ∧ kind ≠ .string := by
  unfold symbol at h
  split at h <;> cases h <;> exact ⟨nofun, nofun⟩

theorem ofText_ident {first : Char} {rest : Text} {n : Nat} (hl : '\n' ∉ rest)
    (h : ofText first rest = .token .ident n) : Identifier ((first :: rest).take n) := by
  cases readAs_of_ofText h with
  | typeComment _ hk => cases hk
  | string h => cases (string_token_inv h).1
  | number _ h => obtain hk | hk := number_kind h <;> cases hk
  | quotedName hf h => exact hf ▸ quotedName_ident hl h
  | word hs h => exact word_ident hs h
  | symbol h => exact absurd rfl (symbol_kind h).1

end Lexeme

theorem splitLines_newline (text : Text) : ∀ line ∈ Text.splitLines text, '\n' ∉ line := by
  fun_induction Text.splitLines text with
  | case1 => simp
  | case2 rest ih => simpa using ih
  | case3 c rest hc hs ih => simpa using Ne.symm hc
  | case4 c rest hc line more hs ih =>
      rw [hs] at ih
      simp only [List.mem_cons, forall_eq_or_imp] at ih ⊢
      refine ⟨?_, ih.2⟩
      simp [ih.1, Ne.symm hc]

theorem sourceLines_newline (source : Text) : ∀ line ∈ sourceLines source, '\n' ∉ line := by
  intro line hm
  obtain ⟨whole, hw, rfl⟩ := List.mem_map.mp hm
  have hn := splitLines_newline source whole hw
  split
  · exact fun hd => hn ((List.dropLast_prefix _).subset hd)
  · exact hn

end TypeStub
