import TypeStub.Grammar.Stub
import TypeStub.Proofs.Grammar.EmptyBody
import TypeStub.Proofs.Token.Block
import TypeStub.Proofs.Token.Reach

-- Bodies that add nothing, as they are written.
namespace TypeStub

open Grammar

-- Text that goes on over some lines and is one token that adds nothing to a body.
def Filler (first : Text) (further : List Text) : Prop :=
  ∃ kind text, (kind = .ellipsis ∨ kind = .kwPass ∨ kind = .string) ∧
    ∀ row column below, ∃ width, Cursor.step ⟨row, column, first, further ++ below⟩ =
      .token kind text ⟨row + further.length, width, [], below⟩

-- An ignore comment after blanks, or nothing.
def IgnoreText (text : Text) : Prop :=
  text = [] ∨ ∃ blanks, Blanks blanks ∧ text = blanks ++ "# type: ignore"

-- Lines of a block of such a width that add nothing. Ignore comments may stand anywhere.
inductive FillerLines (width : Nat) : List Text → Prop
  | nil : FillerLines width []
  | filler {pad first : Text} {further rest : List Text} : Blanks pad → indentWidth pad = width →
      Filler first further → FillerLines width rest →
      FillerLines width ((pad ++ first) :: (further ++ rest))
  | ignore {pad : Text} {rest : List Text} : Blanks pad → FillerLines width rest →
      FillerLines width ((pad ++ "# type: ignore") :: rest)

-- Lines of which the first that is neither blank nor a comment is less indented than a block.
inductive Leaves (width : Nat) : List Text → Prop
  | nil : Leaves width []
  | silent {line : Text} {rest : List Text} : Silent line → Leaves width rest →
      Leaves width (line :: rest)
  | line {pad text : Text} {rest : List Text} : Blanks pad → Opens text → indentWidth pad < width →
      Leaves width ((pad ++ text) :: rest)

-- A body that adds nothing: what stands after the header on its line, the further lines of the
-- body, and lines below it that do not go on with the body.
inductive EmptyForm (outer : Nat) : Text → List Text → List Text → Prop
  | none {below : List Text} : EmptyForm outer [] [] below
  | line {blanks first : Text} {further below : List Text} : Blanks blanks →
      Filler first further → EmptyForm outer (':' :: (blanks ++ first)) further below
  | block {comment pad first : Text} {further rest below : List Text} : IgnoreText comment →
      Blanks pad → outer < indentWidth pad → Filler first further →
      FillerLines (indentWidth pad) rest → Leaves (indentWidth pad) below →
      EmptyForm outer (':' :: comment) ((pad ++ first) :: (further ++ rest)) below

section

variable {first text pad line : Text} {further rest below : List Text} {indents inner : List Nat}
  {marks : List TokenKind} {row column width depth : Nat}

theorem filler_ellipsis : Filler "..." [] :=
  ⟨.ellipsis, "...", .inl rfl, fun _ column _ => ⟨column + 3, rfl⟩⟩

theorem filler_pass : Filler "pass" [] :=
  ⟨.kwPass, "pass", .inr (.inl rfl), fun _ column _ => ⟨column + 4, rfl⟩⟩

-- The closing quotes of a triple-quoted string end its last line.
theorem closeTriple_lines {quote : Char} {middle : List Text} {last : Text}
    (hlast : Lexeme.closingTriple? quote last = some last.length) :
    ∀ {first : Text}, Lexeme.closingTriple? quote first = none →
      (∀ line ∈ middle, Lexeme.closingTriple? quote line = none) → ∃ text,
      ∀ row column below, Cursor.closeTriple quote row column first (middle ++ last :: below) =
        some (text, ⟨row + (middle.length + 1), last.length, [], below⟩) := by
  induction middle with
  | nil =>
      intro first hfirst _
      refine ⟨first ++ '\n' :: last, fun row column below => ?_⟩
      rw [List.nil_append, Cursor.closeTriple_below hfirst, Cursor.closeTriple_here hlast]
      simp
  | cons line more ih =>
      intro first hfirst hmiddle
      obtain ⟨hline, hmore⟩ := List.forall_mem_cons.mp hmiddle
      obtain ⟨text, hclose⟩ := ih hline hmore
      refine ⟨first ++ '\n' :: text, fun row column below => ?_⟩
      rw [List.cons_append, Cursor.closeTriple_below hfirst, hclose]
      simp only [Option.map_some, List.length_cons, Option.some.injEq, Prod.mk.injEq, true_and,
        Cursor.mk.injEq, and_true]
      omega

theorem step_tripleQuoted {letters first : Text} {quote : Char} (htwo : letters.length ≤ 2)
    (hletters : ∀ c ∈ letters, Lexeme.isStringPrefix c = true)
    (hquote : Lexeme.isQuote quote = true) (row column : Nat) (below : List Text) :
    Cursor.step ⟨row, column, letters ++ quote :: quote :: quote :: first, below⟩ =
      match Cursor.closeTriple quote row (column + (letters.length + 3)) first below with
      | some (text, next) => .token .string (letters ++ quote :: quote :: quote :: text) next
      | none => .bad .unterminatedString := by
  have hstring : Lexeme.string? (letters ++ quote :: quote :: quote :: first) =
      some (.tripleQuoted letters.length quote) := Lexeme.string_of_letters htwo hletters hquote
  have hlex : ∃ c rest, letters ++ quote :: quote :: quote :: first = c :: rest ∧
      Lexeme.ofText c rest = .tripleQuoted letters.length quote := by
    cases letters with
    | nil => exact ⟨_, _, rfl, Lexeme.ofText_of_string hstring (.inr hquote)⟩
    | cons c more =>
        exact ⟨_, _, rfl, Lexeme.ofText_of_string hstring (.inl (hletters c List.mem_cons_self))⟩
  have hsplit : letters ++ quote :: quote :: quote :: first =
      (letters ++ [quote, quote, quote]) ++ first := by simp
  have hlength : (letters ++ [quote, quote, quote]).length = letters.length + 3 := by simp
  obtain ⟨c, rest, hrest, hlex⟩ := hlex
  have hstep : Cursor.step ⟨row, column, letters ++ quote :: quote :: quote :: first, below⟩ =
      Cursor.tripleString ⟨row, column, letters ++ quote :: quote :: quote :: first, below⟩
        (letters.length + 3) quote := Cursor.step_of_tripleQuoted hrest hlex
  have hdrop : (letters ++ quote :: quote :: quote :: first).drop (letters.length + 3) = first := by
    rw [hsplit, ← hlength, List.drop_left]
  have htake : (letters ++ quote :: quote :: quote :: first).take (letters.length + 3) =
      letters ++ [quote, quote, quote] := by
    rw [hsplit, ← hlength, List.take_left]
  rw [hstep]
  simp only [Cursor.tripleString, hdrop, htake]
  cases Cursor.closeTriple quote row (column + (letters.length + 3)) first below <;> simp

-- A docstring in triple quotes over several lines.
theorem filler_docstring {letters first last : Text} {middle : List Text} {quote : Char}
    (htwo : letters.length ≤ 2) (hletters : ∀ c ∈ letters, Lexeme.isStringPrefix c = true)
    (hquote : Lexeme.isQuote quote = true) (hfirst : Lexeme.closingTriple? quote first = none)
    (hmiddle : ∀ line ∈ middle, Lexeme.closingTriple? quote line = none)
    (hlast : Lexeme.closingTriple? quote last = some last.length) :
    Filler (letters ++ quote :: quote :: quote :: first) (middle ++ [last]) := by
  obtain ⟨text, hclose⟩ := closeTriple_lines hlast hfirst hmiddle
  refine ⟨.string, letters ++ quote :: quote :: quote :: text, .inr (.inr rfl),
    fun row column below => ⟨last.length, ?_⟩⟩
  rw [step_tripleQuoted htwo hletters hquote, List.append_assoc, List.singleton_append, hclose]
  simp

theorem filler_docstringLine {letters first : Text} {quote : Char} (htwo : letters.length ≤ 2)
    (hletters : ∀ c ∈ letters, Lexeme.isStringPrefix c = true)
    (hquote : Lexeme.isQuote quote = true)
    (hfirst : Lexeme.closingTriple? quote first = some first.length) :
    Filler (letters ++ quote :: quote :: quote :: first) [] := by
  refine ⟨.string, letters ++ quote :: quote :: quote :: first, .inr (.inr rfl),
    fun row column below => ⟨column + (letters.length + 3) + first.length, ?_⟩⟩
  rw [step_tripleQuoted htwo hletters hquote, List.nil_append, Cursor.closeTriple_here hfirst]
  simp

theorem Filler.opens (h : Filler first further) : Opens first := by
  obtain ⟨kind, text, hkind, hstep⟩ := h
  obtain ⟨_, hstep⟩ := hstep 0 0 []
  cases first with
  | nil => cases hstep
  | cons c rest =>
      refine ⟨c, rest, rfl, ?_, ?_⟩
      · by_contra hblank
        rw [Cursor.step_of_blank rfl (by simpa using hblank)] at hstep
        cases hstep
      · rintro rfl
        have hblank : Text.isBlank '#' = false := by decide
        simp only [Cursor.step, Lexeme.ofText, hblank] at hstep
        cases hcomment : Lexeme.typeCommentLength? rest with
        | none => simp [hcomment] at hstep
        | some n =>
            simp only [hcomment] at hstep
            obtain ⟨rfl, -⟩ := (Cursor.Step.token.injEq ..).mp hstep
            simp at hkind

theorem Filler.ne_equal (h : Filler first further) : first.head? ≠ some '=' := by
  intro hhead
  obtain ⟨rest, rfl⟩ := List.head?_eq_some_iff.mp hhead
  obtain ⟨kind, text, hkind, hstep⟩ := h
  obtain ⟨_, hstep⟩ := hstep 0 0 []
  have hlex : Lexeme.ofText '=' rest = Lexeme.symbol '=' rest := by
    have hstring : Lexeme.string? ('=' :: rest) = none := by cases rest <;> rfl
    have hnumber : Lexeme.startsNumber '=' rest = false := rfl
    simp [Lexeme.ofText, Text.isBlank, hstring, hnumber, Lexeme.backtick, Text.isIdentStart]
  have hkinds : ∃ n, Lexeme.symbol '=' rest = .token .eqEq n ∨
      Lexeme.symbol '=' rest = .token .equal n := by
    unfold Lexeme.symbol
    split <;> simp_all
  obtain ⟨n, hn | hn⟩ := hkinds
  · simp only [Cursor.step, hlex, hn] at hstep
    obtain ⟨rfl, -⟩ := (Cursor.Step.token.injEq ..).mp hstep
    simp at hkind
  · simp only [Cursor.step, hlex, hn] at hstep
    obtain ⟨rfl, -⟩ := (Cursor.Step.token.injEq ..).mp hstep
    simp at hkind

theorem ne_equal_of_blanks (hpad : Blanks pad) (htext : text.head? ≠ some '=') :
    (pad ++ text).head? ≠ some '=' := by
  cases pad with
  | nil => exact htext
  | cons c more =>
      have hc := hpad c List.mem_cons_self
      rintro ⟨⟩
      exact absurd hc (by decide)

theorem IgnoreText.ne_equal (h : IgnoreText text) : text.head? ≠ some '=' := by
  obtain rfl | ⟨blanks, hblanks, rfl⟩ := h
  · simp
  · exact ne_equal_of_blanks hblanks (by decide)

-- A colon by itself.
theorem step_colon (hrest : text.head? ≠ some '=') (row column : Nat) (below : List Text) :
    Cursor.step ⟨row, column, ':' :: text, below⟩ =
      .token .colon ":" ⟨row, column + 1, text, below⟩ := by
  have hlex : Lexeme.ofText ':' text = .token .colon 1 := by
    cases text with
    | nil => rfl
    | cons c rest =>
        have hc : c ≠ '=' := fun he => hrest (he ▸ rfl)
        have hstring : Lexeme.string? (':' :: c :: rest) = none := rfl
        have hnumber : Lexeme.startsNumber ':' (c :: rest) = false := rfl
        have hsymbol : Lexeme.symbol ':' (c :: rest) = .token .colon 1 := by
          unfold Lexeme.symbol
          split <;> simp_all
        simp [Lexeme.ofText, Text.isBlank, hstring, hnumber, hsymbol, Lexeme.backtick,
          Text.isIdentStart]
  simp [Cursor.step, hlex, Cursor.skip]

theorem lineStart_ignore (hpad : Blanks pad) (indents : List Nat) :
    lineStart (pad ++ "# type: ignore") ⟨0, false, indents⟩ = .scan pad.length [] indents true :=
  lineStart_pad hpad (by decide) _ indents

theorem reads_ignore (row column : Nat) (below : List Text) (depth : Nat) :
    ∃ tokens, IsIgnore tokens ∧ Cursor.Reads ⟨row, column, "# type: ignore", below⟩ depth tokens
      ⟨row, column + 14, [], below⟩ depth :=
  ⟨_, .plain rfl rfl rfl, .token rfl (.blank rfl (.token rfl (.refl _ _)))⟩

theorem reads_ignoreText (h : IgnoreText text) (row column : Nat) (below : List Text)
    (depth : Nat) : ∃ tokens width, MaybeIgnore tokens ∧ Cursor.Reads ⟨row, column, text, below⟩ depth tokens
      ⟨row, width, [], below⟩ depth := by
  obtain rfl | ⟨blanks, hblanks, rfl⟩ := h
  · exact ⟨[], column, .inl rfl, .refl _ _⟩
  · obtain ⟨tokens, hignore, hreads⟩ := reads_ignore row (column + blanks.length) below depth
    exact ⟨tokens, _, .inr hignore, (reads_blanks hblanks row column _ below depth).append hreads⟩

theorem reads_filler (h : Filler first further) (row column : Nat) (below : List Text) :
    ∃ t width, (t.kind = .ellipsis ∨ t.kind = .kwPass ∨ t.kind = .string) ∧
      Cursor.Reads ⟨row, column, first, further ++ below⟩ 0 [t]
        ⟨row + further.length, width, [], below⟩ 0 := by
  obtain ⟨kind, text, hkind, hstep⟩ := h
  obtain ⟨width, hstep⟩ := hstep row column below
  refine ⟨⟨kind, text, row + 1, column + 1⟩, width, hkind, .token hstep ?_⟩
  obtain rfl | rfl | rfl := hkind <;> exact .refl _ _

-- A line of a block, at the blocks that are open there.
theorem tokens_filler (hpad : Blanks pad) (hfirst : Filler first further)
    (hm : indentMarks (indentWidth pad) indents = (marks, inner, true)) (row : Nat)
    (below : List Text) : ∃ filler, IsFiller filler ∧
      tokensFrom row ((pad ++ first) :: (further ++ below)) ⟨0, false, indents⟩ =
        marks.map (markToken row pad.length) ++
          (filler ++ tokensFrom (row + further.length + 1) below ⟨0, false, inner⟩) := by
  obtain ⟨t, width, ht, hreads⟩ := reads_filler hfirst row pad.length below
  have hstart := lineStart_opens hpad hfirst.opens hm
  have hdrop : (pad ++ first).drop pad.length = first := List.drop_left ..
  rw [← hdrop] at hreads
  have hline := (Margin.line_of_reads hstart hreads).tokens_eq
  refine ⟨t :: ([] ++ [⟨.newline, "\n", row + further.length + 1, width + 1⟩]),
    .inl ⟨t, _, [], ht, .inl rfl, rfl, rfl⟩, hline.trans ?_⟩
  simp [Margin.lineBreak, Margin.tokens]

theorem tokens_ignore (hpad : Blanks pad) (row : Nat) (below : List Text) (indents : List Nat) :
    ∃ filler, IsIgnoreLine filler ∧
      tokensFrom row ((pad ++ "# type: ignore") :: below) ⟨0, false, indents⟩ =
        filler ++ tokensFrom (row + 1) below ⟨0, false, indents⟩ := by
  obtain ⟨ignore, hignore, hreads⟩ := reads_ignore row pad.length below 0
  have hdrop : (pad ++ ("# type: ignore" : Text)).drop pad.length = "# type: ignore" :=
    List.drop_left ..
  rw [← hdrop] at hreads
  have hline := (Margin.line_of_reads (lineStart_ignore hpad indents) hreads).tokens_eq
  refine ⟨_, ⟨ignore, ⟨.newline, "\n", row + 1, pad.length + 14 + 1⟩, hignore, rfl, rfl⟩,
    hline.trans ?_⟩
  simp [Margin.lineBreak, Margin.tokens]

theorem tokens_fillerLines (h : FillerLines width rest) (below : List Text) : ∀ row,
    ∃ fillers row', (∀ filler ∈ fillers, IsFiller filler) ∧
      tokensFrom row (rest ++ below) ⟨0, false, width :: indents⟩ =
        List.flatten fillers ++ tokensFrom row' below ⟨0, false, width :: indents⟩ := by
  induction h with
  | nil => exact fun row => ⟨[], row, by simp, rfl⟩
  | @filler pad first further rest hpad hw hfirst _ ih =>
      intro row
      have hm : indentMarks (indentWidth pad) (width :: indents) =
          ([], width :: indents, true) := by
        simp [indentMarks, hw]
      obtain ⟨filler, hfiller, htokens⟩ := tokens_filler hpad hfirst hm row (rest ++ below)
      obtain ⟨fillers, row', hfillers, hmore⟩ := ih (row + further.length + 1)
      refine ⟨filler :: fillers, row', List.forall_mem_cons.mpr ⟨hfiller, hfillers⟩, ?_⟩
      rw [List.cons_append, List.append_assoc, htokens, hmore]
      simp
  | @ignore pad rest hpad _ ih =>
      intro row
      obtain ⟨filler, hfiller, htokens⟩ := tokens_ignore hpad row (rest ++ below) (width :: indents)
      obtain ⟨fillers, row', hfillers, hmore⟩ := ih (row + 1)
      refine ⟨filler :: fillers, row', List.forall_mem_cons.mpr ⟨.inr hfiller, hfillers⟩, ?_⟩
      rw [List.cons_append, htokens, hmore]
      simp

-- A block closes before the first line that leaves it.
theorem tokens_leaves (h : Leaves width below) : ∀ row, ∃ dedent more, dedent.kind = .dedent ∧
    tokensFrom row below ⟨0, false, width :: indents⟩ = dedent :: more := by
  induction h with
  | nil =>
      intro row
      rw [tokensFrom]
      exact ⟨_, _, rfl, rfl⟩
  | silent hsilent _ ih =>
      intro row
      rw [tokensFrom_silent hsilent rfl]
      exact ih (row + 1)
  | @line pad text rest hpad ho hlt =>
      intro row
      obtain ⟨c, more, rfl, hblank, hhash⟩ := ho
      have hmarks : ∃ marks inner aligned, indentMarks (indentWidth pad) (width :: indents) =
          (.dedent :: marks, inner, aligned) := by
        have hno : ¬ (width :: indents).headD 0 < indentWidth pad := Nat.lt_asymm hlt
        rw [indentMarks, if_neg hno]
        simp [hlt]
      obtain ⟨marks, inner, aligned, hmarks⟩ := hmarks
      have hstart := lineStart_pad hpad hblank more (width :: indents)
      rw [if_neg hhash, hmarks] at hstart
      rw [tokensFrom, hstart]
      cases aligned with
      | true => exact ⟨_, _, rfl, rfl⟩
      | false => exact ⟨_, _, rfl, rfl⟩

end

section

variable {layout : Layout} {line suffix : Text} {row column last width : Nat}
  {marks : List TokenKind} {inner : List Nat} {found more : List Token} {lines below : List Text}

-- A line that goes on after a part of it that has been read.
theorem tokens_longer (hstart : lineStart line layout = .scan column marks inner false)
    (hreads : Cursor.Reads ⟨row, column, line.drop column, []⟩ layout.depth found
      ⟨row, line.length, [], []⟩ 0)
    (hsuffix : Lexeme.Separates suffix)
    (hmore : Cursor.Reads ⟨row, line.length, suffix, lines⟩ 0 more ⟨last, width, [], below⟩ 0) :
    tokensFrom row ((line ++ suffix) :: lines) layout = marks.map (markToken row column) ++
      (found ++ (more ++ ⟨.newline, "\n", last + 1, width + 1⟩ ::
        tokensFrom (last + 1) below ⟨0, false, inner⟩)) := by
  have hcolumn : column ≤ line.length := (LineStart.fits_of_eq hstart).1.1
  have hfirst := (hreads.before hsuffix lines rfl).append hmore
  have hdrop : (line ++ suffix).drop column = line.drop column ++ suffix :=
    List.drop_append_of_le_length hcolumn
  simp only [Cursor.before] at hfirst
  rw [← hdrop] at hfirst
  have hline := (Margin.line_of_reads (lineStart_append hstart suffix) hfirst).tokens_eq
  refine hline.trans ?_
  simp [Margin.lineBreak, Margin.tokens]

-- What follows the header is an empty body, with all of its lines.
theorem tokens_emptyForm (hstart : lineStart line layout = .scan column marks inner false)
    (hreads : Cursor.Reads ⟨row, column, line.drop column, []⟩ layout.depth found
      ⟨row, line.length, [], []⟩ 0)
    {further : List Text} (hform : EmptyForm (inner.headD 0) suffix further below) :
    ∃ body rest, IsEmptyBody body ∧
      tokensFrom row ((line ++ suffix) :: (further ++ below)) layout =
        marks.map (markToken row column) ++ (found ++ (body ++ rest)) := by
  cases hform with
  | none =>
      have htokens := tokens_longer hstart hreads Lexeme.separates_nil (.refl ⟨row, _, [], below⟩ 0)
      exact ⟨_, _, .none rfl, htokens⟩
  | @line blanks first further below hblanks hfirst =>
      have hhead : (blanks ++ first).head? ≠ some '=' :=
        ne_equal_of_blanks hblanks hfirst.ne_equal
      obtain ⟨t, width, ht, hfiller⟩ :=
        reads_filler hfirst row (line.length + 1 + blanks.length) below
      have hmore := Cursor.Reads.token (step_colon hhead row line.length (further ++ below))
        ((reads_blanks hblanks row (line.length + 1) first (further ++ below) 0).append hfiller)
      have htokens := tokens_longer hstart hreads (Lexeme.separates_colon _) hmore
      have hword : IsWordLine [t, ⟨.newline, "\n", row + further.length + 1, width + 1⟩] :=
        ⟨t, _, [], ht, .inl rfl, rfl, rfl⟩
      exact ⟨_, _, .line rfl hword, htokens⟩
  | @block comment pad first further rest below hcomment hpad houter hfirst hrest hbelow =>
      have hm : indentMarks (indentWidth pad) inner =
          ([.indent], indentWidth pad :: inner, true) := by
        rw [indentMarks, if_pos houter]
      obtain ⟨ignore, width, hignore, hcommentReads⟩ := reads_ignoreText hcomment row
        (line.length + 1) ((pad ++ first) :: (further ++ (rest ++ below))) 0
      have hmore := Cursor.Reads.token (step_colon hcomment.ne_equal row line.length
        ((pad ++ first) :: (further ++ (rest ++ below)))) hcommentReads
      have htokens := tokens_longer hstart hreads (Lexeme.separates_colon _) hmore
      obtain ⟨filler, hfiller, hopening⟩ := tokens_filler hpad hfirst hm (row + 1) (rest ++ below)
      obtain ⟨fillers, row', hfillers, hlines⟩ :=
        tokens_fillerLines hrest below (row + 1 + further.length + 1)
      obtain ⟨dedent, after, hdedent, hclosing⟩ := tokens_leaves hbelow row'
      have hbody : IsEmptyBody (⟨.colon, ":", row + 1, line.length + 1⟩ :: (ignore ++
          ⟨.newline, "\n", row + 1, width + 1⟩ :: markToken (row + 1) pad.length .indent ::
            ((filler :: fillers).flatten ++ [dedent]))) :=
        .block rfl hignore rfl rfl (List.forall_mem_cons.mpr ⟨hfiller, hfillers⟩) hdedent
      refine ⟨_, after, hbody, ?_⟩
      rw [List.cons_append, List.append_assoc, htokens, hopening, hlines, hclosing]
      simp

end

-- Where a definition may stand, every way to write an empty body after its header is accepted and
-- gives the same definition. An ignore comment after the colon is no body by itself.
theorem statement_emptyForm {above : List Text} {earlier found before header : List Token}
    {layout : Layout} {line : Text} {column : Nat} {marks : List TokenKind} {inner : List Nat}
    {budget : Nat} {scope : Scope} {h : Header} (habove : Reaches above earlier layout)
    (hstart : lineStart line layout = .scan column marks inner false)
    (hreads : Cursor.Reads ⟨above.length, column, line.drop column, []⟩ layout.depth found
      ⟨above.length, line.length, [], []⟩ 0)
    (hsplit : earlier ++ (marks.map (markToken above.length column) ++ found) = before ++ header)
    (hheader : IsHeader (IsType budget) header h) :
    (∀ suffix further below, EmptyForm (inner.headD 0) suffix further below → ∃ body rest,
      tokenize (above ++ (line ++ suffix) :: (further ++ below)) =
        before ++ (header ++ (body ++ rest)) ∧
      statement budget scope (header ++ (body ++ rest)) = .ok (some h.definition) rest) ∧
    ∀ comment below, IgnoreText comment →
      ((tokensFrom (above.length + 1) below ⟨0, false, inner⟩).headD Token.stop).kind ≠ .indent →
      ∃ colon rest, rest = tokensFrom (above.length + 1) below ⟨0, false, inner⟩ ∧
        tokenize (above ++ (line ++ ':' :: comment) :: below) =
          before ++ (header ++ (colon ++ rest)) ∧
        statement budget scope (header ++ (colon ++ rest)) = Parser.unexpected [.indent] rest := by
  refine ⟨fun suffix further below hform => ?_, fun comment below hcomment hrest => ?_⟩
  · obtain ⟨body, rest, hbody, htokens⟩ := tokens_emptyForm hstart hreads hform
    refine ⟨body, rest, ?_, ?_⟩
    · rw [habove.tokenize, htokens, ← List.append_assoc, ← List.append_assoc, ← List.append_assoc,
        List.append_assoc earlier, hsplit]
      simp
    · rw [statement_header hheader]
      simp only [Functor.map, EStateM.map, definition_emptyBody hheader hbody rest]
  · obtain ⟨ignore, width, hignore, hreadsComment⟩ := reads_ignoreText hcomment above.length
      (line.length + 1) below 0
    have hmore := Cursor.Reads.token
      (step_colon hcomment.ne_equal above.length line.length below) hreadsComment
    have htokens := tokens_longer hstart hreads (Lexeme.separates_colon _) hmore
    generalize tokensFrom (above.length + 1) below ⟨0, false, inner⟩ = rest at hrest htokens ⊢
    refine ⟨⟨.colon, ":", above.length + 1, line.length + 1⟩ :: (ignore ++
      [⟨.newline, "\n", above.length + 1, width + 1⟩]), rest, rfl, ?_, ?_⟩
    · rw [habove.tokenize, htokens, ← List.append_assoc, ← List.append_assoc, ← List.append_assoc,
        List.append_assoc earlier, hsplit]
      simp
    · have hrefused : definition (typeExpr budget)
          (header ++ (⟨.colon, ":", above.length + 1, line.length + 1⟩ :: (ignore ++
            ⟨.newline, "\n", above.length + 1, width + 1⟩ :: rest))) =
          Parser.unexpected [.indent] rest := definition_noBlock hheader rfl hignore rfl hrest
      rw [statement_header hheader, List.cons_append, List.append_assoc, List.singleton_append]
      simp only [Functor.map, EStateM.map, hrefused, Parser.unexpected]

-- A decorated method with a docstring over two lines and an ignore comment below it.
theorem statement_emptyForm_method :
    let above : List Text := ["class A:", "    @staticmethod"]
    let line : Text := "    def f(x: int = 0) -> str"
    let suffix : Text := ":  # type: ignore"
    let further : List Text := ["      '''Some", "words.'''", "# type: ignore", "      pass"]
    let below : List Text := ["", "    y: int"]
    let h : Header := ⟨⟨3, 5⟩, ["staticmethod"], "f",
      [.ordinary "x" (some (.name "int")) (some (.int 0))], some (.name "str")⟩
    ∃ before header body rest,
      tokenize (above ++ (line ++ suffix) :: (further ++ below)) =
        before ++ (header ++ (body ++ rest)) ∧
      statement 99 .classBody (header ++ (body ++ rest)) = .ok (some h.definition) rest := by
  intro above line suffix further below h
  have hclass (more : List Text) : Margin.Line ⟨0, "class A:" :: more, ⟨0, false, []⟩⟩
      [⟨.kwClass, "class", 1, 1⟩, ⟨.ident, "A", 1, 7⟩, ⟨.colon, ":", 1, 8⟩, ⟨.newline, "\n", 1, 9⟩]
      ⟨1, more, ⟨0, false, []⟩⟩ := by
    have hreads : Cursor.Reads ⟨0, 0, "class A:", more⟩ 0
        [⟨.kwClass, "class", 1, 1⟩, ⟨.ident, "A", 1, 7⟩, ⟨.colon, ":", 1, 8⟩] ⟨0, 8, [], more⟩ 0 :=
      .token rfl (.blank rfl (.token rfl (.token rfl (.refl _ _))))
    have hstart : lineStart "class A:" ⟨0, false, []⟩ = .scan 0 [] [] false := rfl
    exact Margin.line_of_reads hstart hreads
  have hmark (more : List Text) : Margin.Line ⟨1, "    @staticmethod" :: more, ⟨0, false, []⟩⟩
      [⟨.indent, "<INDENT>", 2, 5⟩, ⟨.atSign, "@", 2, 5⟩, ⟨.ident, "staticmethod", 2, 6⟩,
        ⟨.newline, "\n", 2, 18⟩] ⟨2, more, ⟨0, false, [4]⟩⟩ := by
    have hreads : Cursor.Reads ⟨1, 4, "@staticmethod", more⟩ 0
        [⟨.atSign, "@", 2, 5⟩, ⟨.ident, "staticmethod", 2, 6⟩] ⟨1, 17, [], more⟩ 0 :=
      .token rfl (.token rfl (.refl _ _))
    have hstart : lineStart "    @staticmethod" ⟨0, false, []⟩ = .scan 4 [.indent] [4] false := rfl
    exact Margin.line_of_reads hstart hreads
  let opening : List Token := [⟨.kwClass, "class", 1, 1⟩, ⟨.ident, "A", 1, 7⟩, ⟨.colon, ":", 1, 8⟩,
    ⟨.newline, "\n", 1, 9⟩, ⟨.indent, "<INDENT>", 2, 5⟩]
  let mark : List Token :=
    [⟨.atSign, "@", 2, 5⟩, ⟨.ident, "staticmethod", 2, 6⟩, ⟨.newline, "\n", 2, 18⟩]
  let params : List Token := [⟨.ident, "x", 3, 11⟩, ⟨.colon, ":", 3, 12⟩, ⟨.ident, "int", 3, 14⟩,
    ⟨.equal, "=", 3, 18⟩, ⟨.int, "0", 3, 20⟩]
  let found : List Token := ⟨.kwDef, "def", 3, 5⟩ :: ⟨.ident, "f", 3, 9⟩ ::
    ⟨.leftParen, "(", 3, 10⟩ :: (params ++ [⟨.rightParen, ")", 3, 21⟩] ++
      [⟨.arrow, "->", 3, 23⟩, ⟨.ident, "str", 3, 26⟩])
  have hempty : Reaches [] [] ⟨0, false, []⟩ := fun more => .refl _
  have habove : Reaches above (opening ++ mark) ⟨0, false, [4]⟩ :=
    (hempty.concat hclass).concat hmark
  have hstart : lineStart line ⟨0, false, [4]⟩ = .scan 4 [] [4] false := rfl
  have hreads : Cursor.Reads ⟨2, 4, "def f(x: int = 0) -> str", []⟩ 0 found ⟨2, 28, [], []⟩ 0 :=
    .token rfl (.blank rfl (.token rfl (.token rfl (.token rfl (.token rfl (.blank rfl (.token rfl
      (.blank rfl (.token rfl (.blank rfl (.token rfl (.token rfl (.blank rfl (.token rfl
        (.blank rfl (.token rfl (.refl _ _)))))))))))))))))
  have hname {t : Token} (ht : t.kind = .ident) : IsDotted [t] t.text :=
    ⟨[t.text], .one ⟨t, ht, rfl, rfl⟩, (Text.joinWith_singleton ..).symm⟩
  have htype {t : Token} (ht : t.kind = .ident) : IsType 99 [t] (.name t.text) :=
    .inl (.name (hname ht))
  have hmarks : AreDecorators mark h.decorators := by
    have hat : Parser.IsToken .atSign [⟨.atSign, "@", 2, 5⟩] := ⟨_, rfl, rfl⟩
    have hdecorator : Closed .newline IsDotted [⟨.ident, "staticmethod", 2, 6⟩,
        ⟨.newline, "\n", 2, 18⟩] "staticmethod" := ⟨[_], _, rfl, hname rfl, rfl⟩
    have hlast : AreDecorators [] [] := .nil rfl
    exact Parser.Repeated.cons hat hdecorator hlast
  have hparam : IsParam (IsType 99) params
      (.ordinary "x" (some (.name "int")) (some (.int 0))) :=
    .ordinary rfl (.some rfl (htype rfl)) (.some rfl (.number (.plain (.int rfl rfl))))
  have hparams : Listed (IsParam (IsType 99)) params h.params :=
    ⟨params, [], rfl, .one hparam, .inl rfl⟩
  have hheader : IsHeader (IsType 99) (mark ++ found) h :=
    ⟨mark, _, _, _, _, _, hmarks, rfl, rfl, rfl, rfl, rfl, ⟨params, _, rfl, .inr hparams, rfl⟩,
      .some rfl (htype rfl), rfl⟩
  have hblanks (n : Nat) : Blanks (List.replicate n ' ') := by
    intro c hc
    rw [List.eq_of_mem_replicate hc]
    rfl
  have hfirst : Filler "'''Some" ["words.'''"] :=
    @filler_docstring [] _ _ [] _ (by decide) (by simp) rfl rfl (by simp) rfl
  have hrest : FillerLines 6 ["# type: ignore", "      pass"] :=
    @FillerLines.ignore _ [] _ (hblanks 0) (.filler (hblanks 6) rfl filler_pass .nil)
  have hbelow : Leaves 6 below :=
    .silent (.inl rfl) (.line (hblanks 4) ⟨_, _, rfl, rfl, by decide⟩ (by decide))
  have hform : EmptyForm 4 suffix further below :=
    .block (.inr ⟨_, hblanks 2, rfl⟩) (hblanks 6) (by decide) hfirst hrest hbelow
  have hsplit : (opening ++ mark) ++ ([] ++ found) = opening ++ (mark ++ found) :=
    List.append_assoc ..
  obtain ⟨body, rest, htokens, hstatement⟩ :=
    (statement_emptyForm habove hstart hreads hsplit hheader).1 _ _ _ hform
  exact ⟨_, _, body, rest, htokens, hstatement⟩

-- A colon and an ignore comment are refused at the end of the file.
theorem statement_emptyForm_ignore :
    (parseSource "def f(): ...\n").isOk = true ∧
      (match parseSource "def f(): # type: ignore\n" with
        | .ok _ => none
        | .error d => some (d.message, d.line)) =
      some (("syntax error, unexpected end of file, expecting INDENT" : Text), some 2) := by
  decide +kernel

end TypeStub
