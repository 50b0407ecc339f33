import TypeStub.Proofs.Token.Identifier

namespace TypeStub

-- A token without its place.
abbrev Spelling := TokenKind × Text

def Token.spelling (token : Token) : Spelling := (token.kind, token.text)

-- The text of a token of a kind that leaves no choice.
def TokenKind.sign : TokenKind → Text
  | newline => "\n"
  | indent => "<INDENT>"
  | dedent => "<DEDENT>"
  | kwDef => "def"
  | kwClass => "class"
  | kwImport => "import"
  | kwFrom => "from"
  | kwAs => "as"
  | kwPass => "pass"
  | kwRaise => "raise"
  | kwPythonCode => "PYTHONCODE"
  | arrow => "->"
  | colon => ":"
  | colonEqual => ":="
  | comma => ","
  | equal => "="
  | star => "*"
  | doubleStar => "**"
  | atSign => "@"
  | dot => "."
  | leftParen => "("
  | rightParen => ")"
  | leftBracket => "["
  | rightBracket => "]"
  | ellipsis => "..."
  | typeComment => "# type:"
  | _ => []

def sign (kind : TokenKind) : Spelling := (kind, kind.sign)

@[simp] theorem sign_kind (kind : TokenKind) : (sign kind).1 = kind := rfl

-- The number of open brackets after several tokens.
def depthAfterAll (spellings : List Spelling) (depth : Nat) : Nat :=
  spellings.foldl (fun depth spelling => depthAfter spelling.1 depth) depth

-- Tokens that leave the brackets as they were, however many are open.
def Balanced (spellings : List Spelling) : Prop := ∀ depth, depthAfterAll spellings depth = depth

theorem Balanced.append {spellings more : List Spelling} (hs : Balanced spellings)
    (hm : Balanced more) : Balanced (spellings ++ more) := by
  intro depth
  rw [depthAfterAll, List.foldl_append]
  exact (congrArg _ (hs depth)).trans (hm depth)

-- A bracket pair around balanced tokens.
theorem Balanced.bracket {spellings : List Spelling} {opening closing : Spelling}
    (hs : Balanced spellings) (ho : ∀ depth, depthAfter opening.1 depth = depth + 1)
    (hc : ∀ depth, depthAfter closing.1 depth = depth - 1) :
    Balanced (opening :: spellings ++ [closing]) := by
  intro depth
  rw [depthAfterAll, List.foldl_append]
  show depthAfter closing.1 (depthAfterAll spellings (depthAfter opening.1 depth)) = depth
  rw [ho, hs, hc, Nat.add_sub_cancel]

theorem Balanced.cons {spellings : List Spelling} {spelling : Spelling}
    (h : ∀ depth, depthAfter spelling.1 depth = depth) (hs : Balanced spellings) :
    Balanced (spelling :: spellings) := fun depth =>
  (congrArg (depthAfterAll spellings) (h depth)).trans (hs depth)

theorem Balanced.nil : Balanced [] := fun _ => rfl

-- The rest of a line that scans to such tokens and ends there.
def Scans (text : Text) (spellings : List Spelling) : Prop :=
  ∀ (row column : Nat) (below : List Text) (depth : Nat), ∃ tokens,
    tokens.map Token.spelling = spellings ∧
    scanLine ⟨row, column, text, below⟩ depth =
      (tokens, .done row (column + text.length) below (depthAfterAll spellings depth) false)

theorem Scans.nil : Scans [] [] := by
  intro row column below depth
  refine ⟨[], rfl, ?_⟩
  rw [scanLine_lineEnd rfl]
  rfl

theorem Scans.blank {text : Text} {spellings : List Spelling} (h : Scans text spellings) :
    Scans (' ' :: text) spellings := by
  intro row column below depth
  obtain ⟨tokens, hs, hscan⟩ := h row (column + 1) below depth
  refine ⟨tokens, hs, ?_⟩
  have hstep : Cursor.step ⟨row, column, ' ' :: text, below⟩ =
      .blank ⟨row, column + 1, text, below⟩ := rfl
  rw [scanLine_blank hstep, hscan, List.length_cons, Nat.add_assoc, Nat.add_comm 1]

theorem Scans.token (first : Char) (more : Text) {rest : Text} {kind : TokenKind}
    {spellings : List Spelling}
    (hl : Lexeme.ofText first (more ++ rest) = .token kind (more.length + 1))
    (h : Scans rest spellings) :
    Scans (first :: (more ++ rest)) ((kind, first :: more) :: spellings) := by
  intro row column below depth
  obtain ⟨tokens, hs, hscan⟩ := h row (column + (more.length + 1)) below (depthAfter kind depth)
  refine ⟨⟨kind, first :: more, row + 1, column + 1⟩ :: tokens, ?_, ?_⟩
  · rw [List.map_cons, hs]
    rfl
  · have hstep : Cursor.step ⟨row, column, first :: (more ++ rest), below⟩ =
        .token kind (first :: more) ⟨row, column + (more.length + 1), rest, below⟩ := by
      simp only [Cursor.step, hl, Cursor.skip, List.take_succ_cons, List.take_left,
        List.drop_succ_cons, List.drop_left]
    have hend : column + (more.length + 1) + rest.length =
        column + (first :: (more ++ rest)).length := by
      rw [List.length_cons, List.length_append]
      omega
    rw [scanLine_token hstep, hscan, hend]
    rfl

-- A text that is a line by itself, or a part of one.
def Inline (text : Text) : Prop := '\n' ∉ text ∧ text.getLast? ≠ some '\r'

instance (text : Text) : Decidable (Inline text) := inferInstanceAs (Decidable (_ ∧ _))

theorem Inline.append {text other : Text} (h : Inline text) (ho : Inline other) :
    Inline (text ++ other) := by
  refine ⟨by simp [h.1, ho.1], ?_⟩
  rw [List.getLast?_append]
  cases hl : other.getLast? with
  | none => simpa using h.2
  | some c => simpa [hl] using ho.2

-- A part of a line that scans to such tokens when what follows it is of a kind.
structure Spells (follow : Text → Prop) (text : Text) (spellings : List Spelling) : Prop where
  inline : Inline text
  scans : ∀ rest more, follow rest → Scans rest more → Scans (text ++ rest) (spellings ++ more)

def Anything (_ : Text) : Prop := True

theorem Spells.append {follow next : Text → Prop} {text other : Text}
    {spellings more : List Spelling} (h : Spells follow text spellings)
    (ho : Spells next other more) (hf : ∀ rest, next rest → follow (other ++ rest)) :
    Spells next (text ++ other) (spellings ++ more) := by
  refine ⟨h.inline.append ho.inline, fun rest tokens hn hs => ?_⟩
  rw [List.append_assoc, List.append_assoc]
  exact h.scans _ _ (hf rest hn) (ho.scans rest tokens hn hs)

theorem Spells.mono {follow next : Text → Prop} {text : Text} {spellings : List Spelling}
    (h : Spells follow text spellings) (hf : ∀ rest, next rest → follow rest) :
    Spells next text spellings :=
  ⟨h.inline, fun rest more hn hs => h.scans rest more (hf rest hn) hs⟩

theorem Spells.whole {follow : Text → Prop} {text : Text} {spellings : List Spelling}
    (h : Spells follow text spellings) (hf : follow []) : Scans text spellings := by
  have hs := h.scans [] [] hf .nil
  rwa [List.append_nil, List.append_nil] at hs

-- What a word may stand before: the end of the line, or one of these.
def Delimited (rest : Text) : Prop := ∀ c ∈ rest.head?, c ∈ (" ,[]():.=" : Text)

theorem delimited_nil : Delimited [] := by simp [Delimited]

theorem delimited_cons {c : Char} {rest : Text} (h : c ∈ (" ,[]():.=" : Text)) :
    Delimited (c :: rest) := by simpa [Delimited] using h

theorem delimiter_facts : ∀ c ∈ (" ,[]():.=" : Text), Text.isIdentChar c = false ∧
    Lexeme.isQuote c = false ∧ Lexeme.isStringPrefix c = false := by
  simp
  decide

theorem isQuote_of_identChar {c : Char} (h : Text.isIdentChar c = true) :
    Lexeme.isQuote c = false := by
  cases hq : Lexeme.isQuote c with
  | false => rfl
  | true =>
      simp only [Lexeme.isQuote, Bool.or_eq_true, beq_iff_eq] at hq
      rcases hq with rfl | rfl <;> exact absurd h (by decide)

theorem identChar_of_identStart {c : Char} (h : Text.isIdentStart c = true) :
    Text.isIdentChar c = true := by
  simp only [Text.isIdentStart, Bool.or_eq_true] at h
  rcases h with h | h <;> simp [Text.isIdentChar, Char.isAlphanum, h]

theorem isDigit_of_identStart {c : Char} (h : Text.isIdentStart c = true) : c.isDigit = false := by
  cases hd : c.isDigit with
  | false => rfl
  | true =>
      simp only [Char.isDigit, Bool.and_eq_true, decide_eq_true_eq] at hd
      simp only [Text.isIdentStart, Bool.or_eq_true, beq_iff_eq] at h
      rcases h with h | rfl
      · rcases (Bool.or_eq_true _ _).mp (show (c.isUpper || c.isLower) = true from h) with h | h
        · have hA : 'A'.val ≤ c.val ∧ c.val ≤ 'Z'.val := of_decide_eq_true h
          exact absurd (UInt32.le_trans hA.1 hd.2) (by decide)
        · have ha : 'a'.val ≤ c.val ∧ c.val ≤ 'z'.val := by
            simpa only [Bool.and_eq_true, decide_eq_true_eq] using
              (show (decide ('a'.val ≤ c.val) && decide (c.val ≤ 'z'.val)) = true from h)
          exact absurd (UInt32.le_trans ha.1 hd.2) (by decide)
      · exact absurd hd (by decide)

namespace Lexeme

-- A word is no string literal: no quote follows its first letters.
theorem string?_word {first : Char} {more rest : Text} (hf : Text.isIdentStart first = true)
    (hm : ∀ c ∈ more, Text.isIdentChar c = true) (hr : Delimited rest) :
    string? (first :: (more ++ rest)) = none := by
  have hf := isQuote_of_identChar (identChar_of_identStart hf)
  cases more with
  | nil =>
      cases rest with
      | nil => cases h : isStringPrefix first <;> simp [string?, h, hf]
      | cons c rest =>
          obtain ⟨-, hq, hp⟩ := delimiter_facts c (hr c rfl)
          cases h : isStringPrefix first <;> simp [string?, h, hf, hq, hp]
  | cons second more =>
      have hs := isQuote_of_identChar (hm second (by simp))
      cases h : isStringPrefix first with
      | false => simp [string?, h, hf]
      | true =>
          cases h' : isStringPrefix second with
          | false => simp [string?, h, h', hs]
          | true =>
              cases more with
              | nil =>
                  cases rest with
                  | nil => simp [string?, h, h']
                  | cons c rest =>
                      have hq := (delimiter_facts c (hr c rfl)).2.1
                      simp [string?, h, h', hq]
              | cons third more =>
                  have ht := isQuote_of_identChar (hm third (by simp))
                  simp [string?, h, h', ht]

theorem takeWhile_word {first : Char} {more rest : Text} (hf : Text.isIdentStart first = true)
    (hm : ∀ c ∈ more, Text.isIdentChar c = true) (hr : Delimited rest) :
    (first :: (more ++ rest)).takeWhile Text.isIdentChar = first :: more := by
  rw [List.takeWhile_cons, identChar_of_identStart hf, if_pos rfl,
    List.takeWhile_append_of_pos hm]
  cases rest with
  | nil => simp
  | cons c rest => simp [(delimiter_facts c (hr c rfl)).1]

theorem ofText_word {first : Char} {more rest : Text} (hf : Text.isIdentStart first = true)
    (hm : ∀ c ∈ more, Text.isIdentChar c = true) (hr : Delimited rest) :
    ofText first (more ++ rest) = .token (.ofWord (first :: more)) (more.length + 1) := by
  have hne : ∀ c : Char, Text.isIdentStart c = false → first ≠ c := by
    rintro c hc rfl
    exact absurd hf (by simp [hc])
  have hblank : Text.isBlank first = false := by
    simp [Text.isBlank, hne ' ' (by decide), hne '\t' (by decide), hne '\x0c' (by decide)]
  have hnumber : startsNumber first (more ++ rest) = false := by
    simp [startsNumber, isDigit_of_identStart hf, hne '.' (by decide)]
  have hback : first ≠ backtick := hne backtick (by decide)
  simp [ofText, hblank, hne '#' (by decide), hne '\\' (by decide), string?_word hf hm hr, hnumber,
    hback, hf, word, takeWhile_word hf hm hr]

theorem ofText_quoted {name rest : Text} (hne : name ≠ []) (hb : backtick ∉ name) :
    ofText backtick (name ++ backtick :: rest) = .token .ident (name.length + 2) := by
  have htake : (name ++ backtick :: rest).takeWhile (· != backtick) = name := by
    rw [List.takeWhile_append_of_pos (by
      intro c hc
      simp only [bne_iff_ne, ne_eq]
      rintro rfl
      exact hb hc)]
    simp
  have hpos := List.length_pos_iff.mpr hne
  have hquoted : quotedName? (name ++ backtick :: rest) = some (.token .ident (name.length + 2)) := by
    simp [quotedName?, htake, hpos]
  have hstring : string? (backtick :: (name ++ backtick :: rest)) = none := by
    have hp : isStringPrefix backtick = false := by decide
    have hq : isQuote backtick = false := by decide
    simp [string?, hp, hq]
  have hstart : startsNumber backtick (name ++ backtick :: rest) = false := by
    simp [startsNumber, backtick]
  have hblank : Text.isBlank backtick = false := by decide
  simp [ofText, hblank, hstring, hstart, hquoted, show backtick ≠ '#' by decide,
    show backtick ≠ '\\' by decide]

end Lexeme

theorem Identifier.inline {name : Text} (h : Identifier name) : Inline name := by
  refine ⟨h.newline_not_mem, ?_⟩
  cases h with
  | word hf hm hk =>
      intro hl
      have hc := List.mem_of_getLast? hl
      rcases List.mem_cons.mp hc with rfl | hc
      · exact absurd hf (by decide)
      · exact absurd (hm _ hc) (by decide)
  | quoted hne hb hl =>
      rw [List.getLast?_append]
      simp [Lexeme.backtick]

theorem spells_identifier {name : Text} (h : Identifier name) :
    Spells Delimited name [(.ident, name)] := by
  refine ⟨h.inline, fun rest more hr hs => ?_⟩
  cases h with
  | word hf hm hk =>
      rename_i first letters
      have hword := Lexeme.ofText_word hf hm hr
      rw [hk] at hword
      exact Scans.token first letters hword hs
  | quoted hne hb hl =>
      refine Scans.token Lexeme.backtick (_ ++ [Lexeme.backtick]) ?_ hs
      rw [List.append_assoc, List.length_append]
      exact Lexeme.ofText_quoted hne hb

-- The tokens of a dotted name.
inductive DottedSpelling : Text → List Spelling → Prop
  | single {name : Text} (h : Identifier name) : DottedSpelling name [(.ident, name)]
  | cons {name rest : Text} {spellings : List Spelling} (h : Identifier name)
      (hr : DottedSpelling rest spellings) :
      DottedSpelling (name ++ '.' :: rest) ((.ident, name) :: sign .dot :: spellings)

theorem DottedName.spelling {text : Text} (h : DottedName text) :
    ∃ spellings, DottedSpelling text spellings := by
  induction h with
  | single h => exact ⟨_, .single h⟩
  | cons h _ ih =>
      obtain ⟨spellings, hs⟩ := ih
      exact ⟨_, .cons h hs⟩

-- What may follow a dot that is by itself: it opens neither a number nor an ellipsis.
def Undotted (rest : Text) : Prop := ∀ c ∈ rest.head?, c ≠ '.' ∧ c.isDigit = false

theorem Identifier.undotted {name : Text} (h : Identifier name) (rest : Text) :
    Undotted (name ++ rest) := by
  intro c hc
  cases h with
  | @word first letters hf hm hk =>
      obtain rfl : first = c := by simpa using hc
      refine ⟨?_, isDigit_of_identStart hf⟩
      rintro rfl
      exact absurd hf (by decide)
  | quoted hne hb hl =>
      obtain rfl : Lexeme.backtick = c := by simpa using hc
      decide

namespace Lexeme

theorem symbol_dot {rest : Text} (h : rest.head? ≠ some '.' ∨ rest.tail.head? ≠ some '.') :
    symbol '.' rest = .token .dot 1 := by
  unfold symbol
  split <;> simp_all

theorem ofText_symbol_dot {rest : Text} (h : rest.head?.any Char.isDigit = false) :
    ofText '.' rest = symbol '.' rest := by
  have hblank : Text.isBlank '.' = false := by decide
  have hstring : string? ('.' :: rest) = none := by
    cases rest <;> rfl
  have hstart : startsNumber '.' rest = false := by
    rw [startsNumber, h]
    rfl
  have hword : Text.isIdentStart '.' = false := by decide
  simp [ofText, hblank, hstring, hstart, hword, backtick]

theorem ofText_dot {rest : Text} (h : Undotted rest) : ofText '.' rest = .token .dot 1 := by
  have hdigit : rest.head?.any Char.isDigit = false := by
    cases rest with
    | nil => rfl
    | cons c more => exact (h c rfl).2
  rw [ofText_symbol_dot hdigit]
  exact symbol_dot (.inl fun hd => (h '.' hd).1 rfl)

end Lexeme

theorem Undotted.scans {rest : Text} {spellings : List Spelling} (h : Undotted rest)
    (hs : Scans rest spellings) : Scans ('.' :: rest) (sign .dot :: spellings) :=
  .token '.' [] (Lexeme.ofText_dot h) hs

theorem DottedSpelling.balanced {text : Text} {spellings : List Spelling}
    (h : DottedSpelling text spellings) : Balanced spellings := by
  induction h with
  | single h => exact .cons (fun _ => rfl) .nil
  | cons h _ ih => exact .cons (fun _ => rfl) (.cons (fun _ => rfl) ih)

theorem DottedSpelling.spells {text : Text} {spellings : List Spelling}
    (h : DottedSpelling text spellings) : Spells Delimited text spellings := by
  induction h with
  | single h => exact spells_identifier h
  | @cons name rest spellings h hr ih =>
      have hdot : Inline ('.' :: rest) := Inline.append (show Inline ['.'] by decide) ih.inline
      refine ⟨h.inline.append hdot, fun after more hd hs => ?_⟩
      rw [List.append_assoc, List.cons_append]
      refine (spells_identifier h).scans _ (sign .dot :: (spellings ++ more))
        (delimited_cons (by simp)) ?_
      have hrest := ih.scans after more hd hs
      refine Undotted.scans ?_ hrest
      cases hr with
      | single hn => exact hn.undotted _
      | cons hn _ =>
          rw [List.append_assoc]
          exact hn.undotted _

end TypeStub
