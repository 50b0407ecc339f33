import TypeStub.Proofs.Token.Above
import TypeStub.Proofs.Token.Layout

-- Line breaks and lines without a statement make no difference to the tokens.
namespace TypeStub

namespace Text

-- A text by its lines: one without a break, or a line with its break and a text after it.
theorem lines_induction {motive : Text → Prop} (last : ∀ line, '\n' ∉ line → motive line)
    (line : ∀ line rest, '\n' ∉ line → motive rest → motive (line ++ '\n' :: rest)) (text : Text) :
    motive text := by
  induction hn : text.length using Nat.strong_induction_on generalizing text with
  | h n ih =>
      by_cases hbreak : '\n' ∈ text
      · obtain ⟨front, rest, rfl, hfront⟩ := List.eq_append_cons_of_mem hbreak
        refine line front rest hfront (ih rest.length ?_ rest rfl)
        rw [← hn, List.length_append, List.length_cons]
        omega
      · exact last text hbreak

-- The text with a carriage return before each line break.
def crlf (text : Text) : Text := text.flatMap fun c => if c = '\n' then "\r\n" else [c]

theorem crlf_line {line : Text} (h : '\n' ∉ line) : crlf line = line := by
  induction line with
  | nil => rfl
  | cons c rest ih =>
      rw [List.mem_cons, not_or] at h
      rw [crlf, List.flatMap_cons, if_neg (Ne.symm h.1)]
      exact congrArg (c :: ·) (ih h.2)

end Text

theorem sourceLines_append {line : Text} (h : '\n' ∉ line) (rest : Text) :
    sourceLines (line ++ '\n' :: rest) =
      (if line.getLast? = some '\r' then line.dropLast else line) :: sourceLines rest := by
  rw [sourceLines, splitLines_append h, List.map_cons]
  rfl

theorem sourceLines_crlf {text : Text} (h : '\r' ∉ text) :
    sourceLines text.crlf = sourceLines text := by
  induction text using Text.lines_induction with
  | last line hline => rw [Text.crlf_line hline]
  | line line rest hline ih =>
      rw [List.mem_append, List.mem_cons, not_or, not_or] at h
      obtain ⟨hfirst, -, hrest⟩ := h
      have hcrlf : Text.crlf (line ++ '\n' :: rest) = (line ++ ['\r']) ++ '\n' :: rest.crlf := by
        rw [Text.crlf, List.flatMap_append, List.flatMap_cons, if_pos rfl, List.append_assoc]
        exact congrArg (· ++ _) (Text.crlf_line hline)
      have hreturn : '\n' ∉ line ++ ['\r'] := by simp [hline]
      have hplain : line.getLast? ≠ some '\r' := fun hlast => hfirst (List.mem_of_getLast? hlast)
      rw [hcrlf, sourceLines_append hreturn, sourceLines_append hline, ih hrest,
        List.getLast?_concat, if_pos rfl, if_neg hplain, List.dropLast_concat]

theorem sourceLines_break {text : Text} (hne : text ≠ []) (h : text.getLast? ≠ some '\n') :
    sourceLines (text ++ ['\n']) = sourceLines text := by
  induction text using Text.lines_induction with
  | last line hline =>
      rw [sourceLines, sourceLines, splitLines_append hline, splitLines_line hline hne]
      rfl
  | line line rest hline ih =>
      have hrest : rest ≠ [] := by
        rintro rfl
        exact h List.getLast?_concat
      have hlast : rest.getLast? ≠ some '\n' := by
        intro hlast
        rw [List.getLast?_append, List.getLast?_cons, hlast] at h
        exact h rfl
      rw [List.append_assoc, List.cons_append, sourceLines_append hline, sourceLines_append hline,
        ih hrest hlast]

-- A line that is blank, or a comment that is no type comment.
def Silent (line : Text) : Prop :=
  line.dropWhile Text.isBlank = [] ∨
    ∃ rest, line.dropWhile Text.isBlank = '#' :: rest ∧ Lexeme.typeCommentLength? rest = none

theorem scanLine_silent {line : Text} (h : Silent line) (row : Nat) (below : List Text)
    (depth : Nat) : ∀ column, ∃ width, scanLine ⟨row, column, line, below⟩ depth =
      ([], .done row width below depth false) := by
  induction line with
  | nil => exact fun column => ⟨_, scanLine_lineEnd rfl⟩
  | cons c rest ih =>
      intro column
      cases hb : Text.isBlank c with
      | true =>
          rw [Silent, List.dropWhile_cons_of_pos hb] at h
          obtain ⟨width, hscan⟩ := ih h (column + 1)
          have hstep : Cursor.step ⟨row, column, c :: rest, below⟩ =
              .blank ⟨row, column + 1, rest, below⟩ := by
            simp [Cursor.step, Lexeme.ofText, hb, Cursor.skip]
          exact ⟨width, (scanLine_blank hstep).trans hscan⟩
      | false =>
          rw [Silent, List.dropWhile_cons_of_neg (by simp [hb])] at h
          obtain h | ⟨more, heq, hcomment⟩ := h
          · cases h
          · obtain ⟨rfl, rfl⟩ := List.cons.inj heq
            have hstep : Cursor.step ⟨row, column, '#' :: rest, below⟩ = .lineEnd false := by
              simp [Cursor.step, Lexeme.ofText, hb, hcomment]
            exact ⟨_, scanLine_lineEnd hstep⟩

-- Before a line that is not continued, a silent line changes nothing but the rows.
theorem tokensFrom_silent {line : Text} {layout : Layout} (h : Silent line)
    (hjoined : layout.joined = false) (row : Nat) (below : List Text) :
    tokensFrom row (line :: below) layout = tokensFrom (row + 1) below layout := by
  by_cases hstarts : layout.startsStatement = true
  · have hdrop : line.drop (line.takeWhile Text.isBlank).length = line.dropWhile Text.isBlank := by
      have hparts := List.takeWhile_append_dropWhile (p := Text.isBlank) (l := line)
      exact (congrArg (List.drop _) hparts.symm).trans (List.drop_left ..)
    have hstart : lineStart line layout = .ignored := by
      rw [lineStart, if_pos hstarts]
      dsimp only
      rw [hdrop]
      obtain h | ⟨rest, h, hcomment⟩ := h
      · rw [h]
      · rw [h]
        simp [hcomment]
    exact (Margin.Line.ignored hstart).tokens_eq
  · have hstart : lineStart line layout = .scan 0 [] layout.indents false :=
      LineStart.lineStart_within (Bool.eq_false_iff.mpr hstarts)
    obtain ⟨width, hscan⟩ := scanLine_silent h row below layout.depth 0
    have hdepth : (layout.depth == 0) = false := by
      simpa [Layout.startsStatement, hjoined] using hstarts
    have hline := (Margin.Line.scanned hstart hscan).tokens_eq
    rw [Margin.lineBreak, hdepth] at hline
    obtain ⟨depth, joined, indents⟩ := layout
    obtain rfl : joined = false := hjoined
    exact hline

section

variable {text longer : Text} {above below : List Text} {line : Text}

-- Tokens that start on a row or below it do not reach on the rows above it.
theorem continued_above {lines : List Text} {earlier later : List Token} {previous : Nat}
    (h : ∀ t ∈ later, previous + 1 < t.line) :
    Continued lines (earlier ++ later) previous ↔ Continued lines earlier previous := by
  unfold Continued
  rw [reachOn_append, reachOn_elsewhere fun t (ht : t ∈ later) _ heq => ?_]
  have hstart : t.start ≤ t.finish := by
    by_cases hne : t.text = []
    · rw [Token.finish, hne]
      exact le_refl _
    · exact (Spot.lt_past hne _).le
  have hline := h t ht
  rw [Spot.le_iff, heq] at hstart
  simp only [Token.start] at hstart
  omega

-- The tokens of lines from a row on stand there or below.
theorem Margin.lt_line {lines : List Text} (hl : ∀ line ∈ lines, '\n' ∉ line) {m : Margin}
    (hon : m.On lines) : ∀ t ∈ m.tokens, m.row < t.line := by
  obtain ⟨last, htiles, -⟩ := m.tokens_tiles hl hon
  intro t ht
  have hstart := Spot.le_iff.mp (htiles.le_start ht)
  have hline : t.line = t.start.row + 1 := (htiles.stands ht).elim (·.line) (·.line)
  dsimp only at hstart
  omega

theorem Margin.Run.follows {lines : List Text} (hl : ∀ line ∈ lines, '\n' ∉ line) {m last : Margin}
    {found : List Token} (h : m.Run found last) :
    ∀ {earlier : List Token}, m.Follows lines earlier → last.Follows lines (earlier ++ found) := by
  induction h with
  | refl => exact fun hf => by rwa [List.append_nil]
  | line hline _ ih =>
      intro earlier hf
      rw [← List.append_assoc]
      exact ih (hline.follows hl hf)

theorem tokenize_insert (htext : sourceLines text = above ++ below)
    (hlonger : sourceLines longer = above ++ line :: below) (hline : Silent line)
    (hstring : ¬ InString (sourceLines text) (tokenize (sourceLines text)) above.length)
    (hjoined : ∀ previous, above.length = previous + 1 →
      ¬ Continued (sourceLines text) (tokenize (sourceLines text)) previous) :
    tokenize (sourceLines longer) = (tokenize (sourceLines text)).map fun t =>
      if above.length < t.line then t.down 1 else t := by
  have hl := sourceLines_newline text
  have hinitial := Margin.Follows.initial (sourceLines text)
  rw [htext] at hl hstring hjoined hinitial ⊢
  rw [hlonger]
  obtain ⟨habove, hbelow⟩ := List.forall_mem_append.mp hl
  have hkeep : ∀ {tokens : List Token}, (∀ t ∈ tokens, t.line ≤ above.length) →
      (tokens.map fun t => if above.length < t.line then t.down 1 else t) = tokens := by
    intro tokens h
    exact (List.map_congr_left fun t ht => if_neg (Nat.not_lt.mpr (h t ht))).trans (List.map_id _)
  cases Margin.tells_of_on habove (.initial above) (.initial above) with
  | @reaches earlier layout hearlier hrun =>
      have hfollows := (hrun below).follows hl hinitial
      have hlater := Margin.lt_line hl hfollows.on
      have htokens : tokenize (above ++ below) = earlier ++ tokensFrom above.length below layout :=
        (hrun below).tokens_eq
      have hends : layout.joined = false := by
        by_contra htrue
        obtain ⟨previous, hrow, hc⟩ := hfollows.joined.mp (Bool.not_eq_false _ ▸ htrue)
        refine hjoined previous hrow ?_
        rw [htokens, continued_above fun t ht => hrow ▸ hlater t ht]
        exact hc
      have hlongerTokens : tokenize (above ++ line :: below) =
          earlier ++ tokensFrom above.length (line :: below) layout :=
        (hrun (line :: below)).tokens_eq
      have hmoved : tokensFrom (above.length + 1) below layout =
          (tokensFrom above.length below layout).map (Token.down 1) :=
        Margin.tokens_down ⟨above.length, below, layout⟩ 1
      rw [hlongerTokens, tokensFrom_silent hline hends, hmoved, htokens, List.map_append,
        hkeep hearlier]
      refine congrArg _ (List.map_congr_left fun t ht => (if_pos (hlater t ht)).symm)
  | inString h => exact absurd (h below hbelow) hstring
  | @stops found hfound htokens =>
      have hsame : tokenize (above ++ below) = found := htokens below
      have hlongerSame : tokenize (above ++ line :: below) = found := htokens (line :: below)
      rw [hsame, hlongerSame, hkeep hfound]

-- Carriage returns before the line breaks and a break after the last line make no difference to the
-- tokens. A silent line only moves those below it, unless it stands in a string or after a
-- backslash.
theorem tokenize_spacing (text : Text) :
    ('\r' ∉ text → tokenize (sourceLines text.crlf) = tokenize (sourceLines text)) ∧
    (text ≠ [] → text.getLast? ≠ some '\n' →
      tokenize (sourceLines (text ++ ['\n'])) = tokenize (sourceLines text)) ∧
    ∀ (above below : List Text) (line longer : Text), sourceLines text = above ++ below →
      sourceLines longer = above ++ line :: below → Silent line →
      ¬ InString (sourceLines text) (tokenize (sourceLines text)) above.length →
      (∀ previous, above.length = previous + 1 →
        ¬ Continued (sourceLines text) (tokenize (sourceLines text)) previous) →
      tokenize (sourceLines longer) = (tokenize (sourceLines text)).map fun t =>
        if above.length < t.line then t.down 1 else t := by
  refine ⟨fun h => by rw [sourceLines_crlf h], fun hne h => by rw [sourceLines_break hne h], ?_⟩
  intro above below line longer htext hlonger hline hstring hjoined
  exact tokenize_insert htext hlonger hline hstring hjoined

-- A comment between the lines of a bracket, in a text with a string over two lines.
theorem tokenize_spacing_comment :
    let text : Text := "x = [a,\nb]\n\"\"\"c\nd\"\"\""
    let longer : Text := "x = [a,\n  # note\nb]\n\"\"\"c\nd\"\"\""
    tokenize (sourceLines text.crlf) = tokenize (sourceLines text) ∧
      tokenize (sourceLines (text ++ ['\n'])) = tokenize (sourceLines text) ∧
      tokenize (sourceLines longer) = (tokenize (sourceLines text)).map fun t =>
        if 1 < t.line then t.down 1 else t := by
  intro text longer
  have hkinds : ∀ t ∈ tokenize (sourceLines text),
      t.kind ≠ .error ∧ (t.start.row < 1 → t.kind ≠ .string) := by decide +kernel
  have hstring : ¬ InString (sourceLines text) (tokenize (sourceLines text)) 1 := by
    rintro ⟨t, ht, hrow, ⟨hkind, -⟩ | ⟨hkind, -⟩⟩
    · exact (hkinds t ht).2 hrow hkind
    · exact (hkinds t ht).1 hkind
  have hend : (rowText (sourceLines text) 0).drop (reachOn 0 0 (tokenize (sourceLines text))) =
      [] := by decide +kernel
  obtain ⟨hcrlf, hbreak, hinsert⟩ := tokenize_spacing text
  refine ⟨hcrlf (by decide), hbreak (by decide) (by decide), ?_⟩
  refine hinsert ["x = [a,"] ["b]", "\"\"\"c", "d\"\"\""] "  # note" longer (by decide +kernel)
    (by decide +kernel) (.inr ⟨" note", by decide, by decide⟩) hstring fun previous hrow => ?_
  obtain rfl : 0 = previous := Nat.succ.inj hrow
  rw [Continued, hend]
  exact not_joins_nil

end

end TypeStub
