import TypeStub.Proofs.Token.Scan

namespace TypeStub

-- What stands between two lines: the row of the next one, the lines from it on, and the layout.
structure Margin where
  row : Nat
  ahead : List Text
  layout : Layout

namespace Margin

def initial (lines : List Text) : Margin := ⟨0, lines, ⟨0, false, []⟩⟩

-- The tokens that are still to come.
def tokens (m : Margin) : List Token := tokensFrom m.row m.ahead m.layout

-- The line break after a scan, unless the next line goes on with the statement.
def lineBreak (loneComment : Bool) (row width depth : Nat) (joined : Bool) : List Token :=
  if loneComment || (depth == 0 && !joined) then [⟨.newline, "\n", row + 1, width + 1⟩] else []

-- The tokens of a line, or of the lines that a string goes over, and what is left after them.
inductive Line : Margin → List Token → Margin → Prop
  | ignored {row : Nat} {line : Text} {below : List Text} {layout : Layout} :
      lineStart line layout = .ignored →
      Line ⟨row, line :: below, layout⟩ [] ⟨row + 1, below, layout⟩
  | scanned {row column last width depth : Nat} {line : Text} {below rest : List Text}
      {layout : Layout} {marks : List TokenKind} {indents : List Nat} {loneComment joined : Bool}
      {found : List Token} :
      lineStart line layout = .scan column marks indents loneComment →
      scanLine ⟨row, column, line.drop column, below⟩ layout.depth =
        (found, .done last width rest depth joined) →
      Line ⟨row, line :: below, layout⟩
        (marks.map (markToken row column) ++
          (found ++ lineBreak loneComment last width depth joined))
        ⟨last + 1, rest, ⟨depth, joined, indents⟩⟩

-- The tokens after which no line follows.
inductive Stops : Margin → List Token → Prop
  | done {row : Nat} {layout : Layout} :
      Stops ⟨row, [], layout⟩
        (layout.indents.map (fun _ => markToken row 0 .dedent) ++ [⟨.endOfFile, [], row + 1, 1⟩])
  | misaligned {row column : Nat} {line : Text} {below : List Text} {layout : Layout}
      {marks : List TokenKind} :
      lineStart line layout = .misaligned column marks →
      Stops ⟨row, line :: below, layout⟩
        (marks.map (markToken row column) ++ failureTokens .invalidIndentation row column)
  | failed {row column last width : Nat} {line : Text} {below : List Text} {layout : Layout}
      {marks : List TokenKind} {indents : List Nat} {loneComment : Bool} {found : List Token}
      {cause : LexError} :
      lineStart line layout = .scan column marks indents loneComment →
      scanLine ⟨row, column, line.drop column, below⟩ layout.depth =
        (found, .failed cause last width) →
      Stops ⟨row, line :: below, layout⟩
        (marks.map (markToken row column) ++ (found ++ failureTokens cause last width))

-- One line after the other.
inductive Run : Margin → List Token → Margin → Prop
  | refl (m : Margin) : Run m [] m
  | line {m next last : Margin} {found more : List Token} :
      Line m found next → Run next more last → Run m (found ++ more) last

section

variable {m next last : Margin} {found more : List Token}

theorem Line.tokens_eq (h : Line m found next) : m.tokens = found ++ next.tokens := by
  cases h with
  | ignored hstart =>
      unfold tokens
      rw [tokensFrom, hstart]
      rfl
  | scanned hstart hscan =>
      unfold tokens
      rw [tokensFrom, hstart, List.append_assoc]
      dsimp only
      congr 1
      split
      · rename_i hfailed
        rw [hscan] at hfailed
        simp at hfailed
      · rename_i hdone
        rw [hscan, Prod.mk.injEq, LineEnd.done.injEq] at hdone
        obtain ⟨rfl, rfl, rfl, rfl, rfl, rfl⟩ := hdone
        rfl

theorem Stops.tokens_eq (h : Stops m found) : m.tokens = found := by
  cases h with
  | done =>
      unfold tokens
      rw [tokensFrom]
  | misaligned hstart =>
      unfold tokens
      rw [tokensFrom, hstart]
  | failed hstart hscan =>
      unfold tokens
      rw [tokensFrom, hstart]
      dsimp only
      congr 1
      split
      · rename_i hfailed
        rw [hscan, Prod.mk.injEq, LineEnd.failed.injEq] at hfailed
        obtain ⟨rfl, rfl, rfl, rfl⟩ := hfailed
        rfl
      · rename_i hdone
        rw [hscan] at hdone
        simp at hdone

theorem Line.ahead_lt (h : Line m found next) : next.ahead.length < m.ahead.length := by
  cases h with
  | ignored => exact Nat.lt_succ_self _
  | scanned _ hscan => exact Nat.lt_succ_of_le (scanLine_below hscan)

-- A line is taken whole, or the tokens come to their end.
theorem line_or_stops (m : Margin) :
    (∃ found next, Line m found next) ∨ ∃ found, Stops m found := by
  obtain ⟨row, ahead, layout⟩ := m
  cases ahead with
  | nil => exact .inr ⟨_, .done⟩
  | cons line below =>
      cases hstart : lineStart line layout with
      | ignored => exact .inl ⟨_, _, .ignored hstart⟩
      | misaligned column marks => exact .inr ⟨_, .misaligned hstart⟩
      | scan column marks indents loneComment =>
          cases hscan : scanLine ⟨row, column, line.drop column, below⟩ layout.depth with
          | mk found ending =>
              cases ending with
              | done => exact .inl ⟨_, _, .scanned hstart hscan⟩
              | failed => exact .inr ⟨_, .failed hstart hscan⟩

theorem Run.tokens_eq (h : Run m found last) : m.tokens = found ++ last.tokens := by
  induction h with
  | refl => rfl
  | line hline _ ih => rw [hline.tokens_eq, ih, List.append_assoc]

end

-- What holds of the tokens at a stop, and goes from the tokens after a line to those before it,
-- holds of all tokens that are to come.
theorem tokens_induction {motive : Margin → List Token → Prop}
    (stops : ∀ {m found}, Stops m found → motive m found)
    (line : ∀ {m next found}, Line m found next → motive next next.tokens →
      motive m (found ++ next.tokens)) (m : Margin) : motive m m.tokens := by
  induction hn : m.ahead.length using Nat.strong_induction_on generalizing m with
  | h n ih =>
      obtain ⟨found, next, hline⟩ | ⟨found, hstops⟩ := line_or_stops m
      · rw [hline.tokens_eq]
        exact line hline (ih next.ahead.length (hn ▸ hline.ahead_lt) next rfl)
      · rw [hstops.tokens_eq]
        exact stops hstops

end Margin

end TypeStub
