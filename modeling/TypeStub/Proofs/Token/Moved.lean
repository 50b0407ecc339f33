import TypeStub.Proofs.Token.Margin

-- The tokens of lines do not depend on the row at which the lines stand, except for their own rows.
namespace TypeStub

def Token.down (n : Nat) (t : Token) : Token := { t with line := t.line + n }

namespace Cursor

def down (n : Nat) (c : Cursor) : Cursor := { c with row := c.row + n }

def Step.down (n : Nat) : Step → Step
  | .token kind text next => .token kind text (next.down n)
  | .blank next => .blank (next.down n)
  | .lineEnd joined => .lineEnd joined
  | .bad cause => .bad cause

theorem closeTriple_down (quote : Char) (row n column : Nat) (rest : Text) (below : List Text) :
    closeTriple quote (row + n) column rest below =
      (closeTriple quote row column rest below).map fun (text, next) => (text, next.down n) := by
  induction below generalizing row column rest with
  | nil =>
      rw [closeTriple, closeTriple]
      cases Lexeme.closingTriple? quote rest <;> rfl
  | cons line more ih =>
      rw [closeTriple, closeTriple]
      cases Lexeme.closingTriple? quote rest with
      | some length => rfl
      | none =>
          have hrow : row + n + 1 = row + 1 + n := Nat.add_right_comm ..
          dsimp only
          rw [hrow, ih (row + 1) 0 line]
          cases closeTriple quote (row + 1) 0 line more <;> rfl

theorem tripleString_down (c : Cursor) (n opening : Nat) (quote : Char) :
    (c.down n).tripleString opening quote = (c.tripleString opening quote).down n := by
  simp only [tripleString, down]
  rw [closeTriple_down]
  cases closeTriple quote c.row (c.column + opening) (c.rest.drop opening) c.below <;> rfl

theorem step_down (c : Cursor) (n : Nat) : (c.down n).step = c.step.down n := by
  obtain ⟨row, column, rest, below⟩ := c
  cases rest with
  | nil => rfl
  | cons first rest =>
      simp only [step, down]
      cases Lexeme.ofText first rest with
      | tripleQuoted prefixLength quote => exact tripleString_down ⟨row, column, _, below⟩ n _ quote
      | _ => rfl

end Cursor

def LineEnd.down (n : Nat) : LineEnd → LineEnd
  | .done row width below depth joined => .done (row + n) width below depth joined
  | .failed cause row column => .failed cause (row + n) column

theorem scanLine_down (c : Cursor) (n depth : Nat) : scanLine (c.down n) depth =
    ((scanLine c depth).1.map (Token.down n), (scanLine c depth).2.down n) := by
  fun_induction scanLine c depth with
  | case1 c depth kind text next hs _ more last hscan ih =>
      have hstep : (c.down n).step = .token kind text (next.down n) := by
        rw [c.step_down, hs]
        rfl
      rw [scanLine_token hstep, ih, hscan, List.map_cons]
      simp only [Token.down, Cursor.down, Nat.add_right_comm]
  | case2 c depth next hs _ ih =>
      have hstep : (c.down n).step = .blank (next.down n) := by
        rw [c.step_down, hs]
        rfl
      rw [scanLine_blank hstep, ih]
  | case3 c depth joined hs =>
      have hstep : (c.down n).step = .lineEnd joined := by
        rw [c.step_down, hs]
        rfl
      rw [scanLine_lineEnd hstep]
      rfl
  | case4 c depth cause hs =>
      have hstep : (c.down n).step = .bad cause := by
        rw [c.step_down, hs]
        rfl
      rw [scanLine_bad hstep]
      rfl

theorem markToken_down (row n column : Nat) (marks : List TokenKind) :
    marks.map (markToken (row + n) column) =
      (marks.map (markToken row column)).map (Token.down n) := by
  rw [List.map_map]
  refine List.map_congr_left fun kind _ => ?_
  simp only [Function.comp, markToken, Token.down, Nat.add_right_comm]

theorem failureTokens_down (cause : LexError) (row n column : Nat) :
    failureTokens cause (row + n) column = (failureTokens cause row column).map (Token.down n) := by
  simp only [failureTokens, List.map_cons, List.map_nil, Token.down, Nat.add_right_comm]

namespace Margin

def down (n : Nat) (m : Margin) : Margin := { m with row := m.row + n }

section

variable {m next : Margin} {found : List Token}

theorem lineBreak_down (loneComment : Bool) (row n width depth : Nat) (joined : Bool) :
    lineBreak loneComment (row + n) width depth joined =
      (lineBreak loneComment row width depth joined).map (Token.down n) := by
  unfold lineBreak
  split
  · simp only [List.map_cons, List.map_nil, Token.down, Nat.add_right_comm]
  · rfl

theorem Line.down (h : Line m found next) (n : Nat) :
    Line (m.down n) (found.map (Token.down n)) (next.down n) := by
  cases h with
  | @ignored row line below layout hstart =>
      have hline : Line ⟨row + n, line :: below, layout⟩ [] ⟨row + n + 1, below, layout⟩ :=
        .ignored hstart
      rwa [Nat.add_right_comm] at hline
  | @scanned row column last width depth line below rest layout marks indents lone joined found
      hstart hscan =>
      have hmoved := scanLine_down ⟨row, column, line.drop column, below⟩ n layout.depth
      rw [hscan] at hmoved
      have hline := Line.scanned hstart hmoved
      rw [markToken_down, lineBreak_down, Nat.add_right_comm, ← List.map_append,
        ← List.map_append] at hline
      exact hline

theorem Stops.down (h : Stops m found) (n : Nat) : Stops (m.down n) (found.map (Token.down n)) := by
  cases h with
  | @done row layout =>
      have hstops : Stops ⟨row + n, [], layout⟩ _ := .done
      have hmarks : (layout.indents.map fun _ => markToken (row + n) 0 .dedent) =
          (layout.indents.map fun _ => markToken row 0 .dedent).map (Token.down n) := by
        rw [List.map_map]
        refine List.map_congr_left fun _ _ => ?_
        simp only [Function.comp, markToken, Token.down, Nat.add_right_comm]
      rw [hmarks, Nat.add_right_comm] at hstops
      rw [List.map_append]
      exact hstops
  | @misaligned row column line below layout marks hstart =>
      have hstops : Stops ⟨row + n, line :: below, layout⟩ _ := .misaligned hstart
      rw [markToken_down, failureTokens_down, ← List.map_append] at hstops
      exact hstops
  | @failed row column last width line below layout marks indents lone found cause hstart hscan =>
      have hmoved := scanLine_down ⟨row, column, line.drop column, below⟩ n layout.depth
      rw [hscan] at hmoved
      have hstops := Stops.failed hstart hmoved
      rw [markToken_down, failureTokens_down, ← List.map_append, ← List.map_append] at hstops
      exact hstops

end

theorem tokens_down (m : Margin) (n : Nat) : (m.down n).tokens = m.tokens.map (Token.down n) := by
  refine tokens_induction (motive := fun m tokens => (m.down n).tokens = tokens.map (Token.down n))
    ?_ ?_ m
  · intro m found hstops
    exact (hstops.down n).tokens_eq
  · intro m next found hline ih
    rw [(hline.down n).tokens_eq, ih, List.map_append]

end Margin

end TypeStub
