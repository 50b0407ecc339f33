import TypeStub.Proofs.Token.Before
import TypeStub.Proofs.Token.Block
import TypeStub.Proofs.Token.Spacing

-- Lines that are put below others, where those have come to an end.
namespace TypeStub

-- Lines with such tokens and with such a layout after them, whatever follows.
def Reaches (above : List Text) (earlier : List Token) (layout : Layout) : Prop :=
  ∀ more, Margin.Run ((Margin.initial above).onto more) earlier ⟨above.length, more, layout⟩

-- A part of a line that is all blank.
def Blanks (text : Text) : Prop := ∀ c ∈ text, Text.isBlank c = true

section

variable {above below : List Text} {earlier found : List Token} {layout : Layout} {line : Text}
  {row column last width depth inner : Nat} {marks : List TokenKind} {indents : List Nat}
  {loneComment : Bool}

theorem Reaches.tokenize (h : Reaches above earlier layout) (more : List Text) :
    tokenize (above ++ more) = earlier ++ tokensFrom above.length more layout :=
  (h more).tokens_eq

theorem Margin.Run.concat {m next last : Margin} {found more : List Token}
    (h : Margin.Run m found next) (hline : Margin.Line next more last) : Margin.Run m (found ++ more) last := by
  induction h with
  | refl =>
      have hrun := Margin.Run.line hline (.refl _)
      rwa [List.append_nil] at hrun
  | line hfirst _ ih =>
      rw [List.append_assoc]
      exact .line hfirst (ih hline)

theorem Reaches.concat {after : Layout} (h : Reaches above earlier layout)
    (hline : ∀ more, Margin.Line ⟨above.length, line :: more, layout⟩ found
      ⟨above.length + 1, more, after⟩) : Reaches (above ++ [line]) (earlier ++ found) after := by
  intro more
  have hrun := (h (line :: more)).concat (hline more)
  rw [List.length_append, List.length_singleton]
  have hsame : (Margin.initial (above ++ [line])).onto more =
      (Margin.initial above).onto (line :: more) := by
    simp [Margin.initial, Margin.onto]
  rwa [hsame]

theorem reads_blanks {blanks : Text} (h : Blanks blanks) (row column : Nat) (rest : Text)
    (below : List Text) (depth : Nat) :
    Cursor.Reads ⟨row, column, blanks ++ rest, below⟩ depth []
      ⟨row, column + blanks.length, rest, below⟩ depth := by
  induction blanks generalizing column with
  | nil => exact .refl _ _
  | cons c more ih =>
      obtain ⟨hc, hmore⟩ := List.forall_mem_cons.mp h
      have hreads := ih hmore (column + 1)
      rw [Nat.add_assoc, Nat.add_comm 1] at hreads
      exact .blank (Cursor.step_of_blank rfl hc) hreads

theorem Cursor.Reads.append {c middle last : Cursor} {depth inner final : Nat}
    {tokens more : List Token} (h : Cursor.Reads c depth tokens middle inner)
    (hm : Cursor.Reads middle inner more last final) :
    Cursor.Reads c depth (tokens ++ more) last final := by
  induction h with
  | refl => exact hm
  | token hs _ ih => exact .token hs (ih hm)
  | blank hs _ ih => exact .blank hs (ih hm)

-- A line that is read to its end.
theorem Margin.line_of_reads
    (hstart : lineStart line layout = .scan column marks indents loneComment)
    (hreads : Cursor.Reads ⟨row, column, line.drop column, below⟩ layout.depth found
      ⟨last, width, [], more⟩ inner) :
    Margin.Line ⟨row, line :: below, layout⟩
      (marks.map (markToken row column) ++
        (found ++ Margin.lineBreak loneComment last width inner false))
      ⟨last + 1, more, ⟨inner, false, indents⟩⟩ := by
  refine .scanned hstart ?_
  rw [hreads.scanLine_eq, scanLine_lineEnd rfl, List.append_nil]
  rfl

-- What is added at the end of a line with a statement does not change its beginning.
theorem lineStart_append (hstart : lineStart line layout = .scan column marks indents false)
    (suffix : Text) : lineStart (line ++ suffix) layout = .scan column marks indents false := by
  by_cases hstarts : layout.startsStatement = true
  · rw [lineStart, if_pos hstarts] at hstart ⊢
    dsimp only at hstart ⊢
    cases hdrop : line.drop (line.takeWhile Text.isBlank).length with
    | nil =>
        rw [hdrop] at hstart
        cases hstart
    | cons c rest =>
        have hinside : (line.takeWhile Text.isBlank).length < line.length := by
          have hlength := congrArg List.length hdrop
          rw [List.length_drop, List.length_cons] at hlength
          omega
        rw [Lexeme.takeWhile_inside hinside, List.drop_append_of_le_length (Nat.le_of_lt hinside),
          hdrop]
        rw [hdrop] at hstart
        dsimp only [List.cons_append] at hstart ⊢
        split
        · rename_i hhash
          rw [if_pos hhash] at hstart
          split at hstart <;> cases hstart
        · rename_i hhash
          rwa [if_neg hhash] at hstart
  · rw [LineStart.lineStart_within (Bool.eq_false_iff.mpr hstarts)] at hstart ⊢
    exact hstart

end

section

variable {pad text : Text} {indents inner : List Nat} {marks : List TokenKind}

theorem takeWhile_blanks (hpad : Blanks pad) {c : Char} (hc : Text.isBlank c = false)
    (rest : Text) : (pad ++ c :: rest).takeWhile Text.isBlank = pad := by
  rw [List.takeWhile_append_of_pos hpad, List.takeWhile_cons_of_neg (by simp [hc]), List.append_nil]

-- The beginning of a line where a statement may start, by its first byte that is not blank.
theorem lineStart_pad (hpad : Blanks pad) {c : Char} (hc : Text.isBlank c = false) (rest : Text)
    (indents : List Nat) : lineStart (pad ++ c :: rest) ⟨0, false, indents⟩ =
      if c = '#' then
        if (Lexeme.typeCommentLength? rest).isSome then .scan pad.length [] indents true
        else .ignored
      else
        match indentMarks (indentWidth pad) indents with
        | (marks, inner, true) => .scan pad.length marks inner false
        | (marks, _, false) => .misaligned pad.length marks := by
  have hstarts : Layout.startsStatement ⟨0, false, indents⟩ = true := rfl
  rw [lineStart, if_pos hstarts, takeWhile_blanks hpad hc]
  dsimp only
  generalize htail : (pad ++ c :: rest).drop pad.length = tail
  obtain rfl : c :: rest = tail := by rw [← htail, List.drop_left]
  rfl

theorem lineStart_opens (hpad : Blanks pad) (ho : Opens text)
    (hm : indentMarks (indentWidth pad) indents = (marks, inner, true)) :
    lineStart (pad ++ text) ⟨0, false, indents⟩ = .scan pad.length marks inner false := by
  obtain ⟨c, rest, rfl, hblank, hhash⟩ := ho
  rw [lineStart_pad hpad hblank, if_neg hhash, hm]

end

end TypeStub
