import TypeStub.Token.Progress

namespace TypeStub

-- The physical lines of a source. A carriage return before a line break belongs to the break.
def sourceLines (source : Text) : List Text :=
  (Text.splitLines source).map fun line =>
    if line.getLast? = some '\r' then line.dropLast else line

-- A line by its number, counted from one; empty when there is no such line.
def lineAt (lines : List Text) (number : Int) : Text :=
  if number < 1 then [] else lines.getD (number.toNat - 1) []

-- How the scan of a line ended: at the end of a line, maybe further down, or at a lexical error.
inductive LineEnd
  | done (row width : Nat) (below : List Text) (depth : Nat) (joined : Bool)
  | failed (cause : LexError) (row column : Nat)

-- The number of open brackets after a token. A closing bracket too many is ignored here.
def depthAfter (kind : TokenKind) (depth : Nat) : Nat :=
  match kind with
  | .leftParen | .leftBracket => depth + 1
  | .rightParen | .rightBracket => depth - 1
  | _ => depth

-- The tokens from a place to the end of the line on which the scan comes to rest.
def scanLine (c : Cursor) (depth : Nat) : List Token × LineEnd :=
  match hs : c.step with
  | .token kind text next =>
      have := (Cursor.step_token_size hs).1
      let (tokens, ending) := scanLine next (depthAfter kind depth)
      (⟨kind, text, c.row + 1, c.column + 1⟩ :: tokens, ending)
  | .blank next =>
      have := (Cursor.step_blank_size hs).1
      scanLine next depth
  | .lineEnd joined => ([], .done c.row c.lineEnd c.below depth joined)
  | .bad cause => ([], .failed cause c.row c.column)
termination_by c.size

section

variable {c next : Cursor} {depth : Nat}

theorem scanLine_token {kind : TokenKind} {text : Text} (h : c.step = .token kind text next) :
    scanLine c depth =
      (⟨kind, text, c.row + 1, c.column + 1⟩ :: (scanLine next (depthAfter kind depth)).1,
        (scanLine next (depthAfter kind depth)).2) := by
  rw [scanLine]
  split <;> rename_i hs <;> rw [h] at hs
  · obtain ⟨rfl, rfl, rfl⟩ := (Cursor.Step.token.injEq ..).mp hs
    rfl
  all_goals cases hs

theorem scanLine_blank (h : c.step = .blank next) : scanLine c depth = scanLine next depth := by
  rw [scanLine]
  split <;> rename_i hs <;> rw [h] at hs
  · cases hs
  · obtain rfl := (Cursor.Step.blank.injEq ..).mp hs
    rfl
  all_goals cases hs

theorem scanLine_lineEnd {joined : Bool} (h : c.step = .lineEnd joined) :
    scanLine c depth = ([], .done c.row c.lineEnd c.below depth joined) := by
  rw [scanLine]
  split <;> rename_i hs <;> rw [h] at hs
  · cases hs
  · cases hs
  · obtain rfl := (Cursor.Step.lineEnd.injEq ..).mp hs
    rfl
  · cases hs

theorem scanLine_bad {cause : LexError} (h : c.step = .bad cause) :
    scanLine c depth = ([], .failed cause c.row c.column) := by
  rw [scanLine]
  split <;> rename_i hs <;> rw [h] at hs
  · cases hs
  · cases hs
  · cases hs
  · obtain rfl := (Cursor.Step.bad.injEq ..).mp hs
    rfl

end

-- A scan never goes back up.
theorem scanLine_below {c : Cursor} {depth : Nat} {tokens : List Token} {row width : Nat}
    {below : List Text} {depth' : Nat} {joined : Bool}
    (h : scanLine c depth = (tokens, .done row width below depth' joined)) :
    below.length ≤ c.below.length := by
  fun_induction scanLine c depth generalizing tokens with
  | case1 c depth kind text next hs _ ts ending hr ih =>
      simp only [Prod.mk.injEq] at h
      obtain ⟨-, rfl⟩ := h
      exact Nat.le_trans (ih hr) (Cursor.step_token_size hs).2
  | case2 c depth next hs _ ih => exact (Cursor.step_blank_size hs).2 ▸ ih h
  | case3 =>
      simp only [Prod.mk.injEq, LineEnd.done.injEq] at h
      obtain ⟨-, -, -, rfl, -⟩ := h
      exact Nat.le_refl _
  | case4 => simp at h

-- What carries over from line to line: the open brackets, whether the last line is continued, and
-- the widths of the open indented blocks, the innermost first.
structure Layout where
  depth : Nat
  joined : Bool
  indents : List Nat
  deriving DecidableEq, Repr

-- A line takes its part in the layout only where a statement may start.
def Layout.startsStatement (layout : Layout) : Bool := layout.depth == 0 && !layout.joined

-- A tab reaches to the next multiple of eight.
def indentWidth (blanks : Text) : Nat :=
  blanks.foldl (fun width c => if c = '\t' then (width / 8 + 1) * 8 else width + 1) 0

-- The indent or dedents before a line of a given width, the blocks open after them, and whether
-- the width is that of an open block.
def indentMarks (width : Nat) (indents : List Nat) : List TokenKind × List Nat × Bool :=
  if indents.headD 0 < width then ([.indent], width :: indents, true)
  else
    let kept := indents.dropWhile (width < ·)
    ((indents.takeWhile (width < ·)).map fun _ => .dedent, kept, width == kept.headD 0)

-- What the beginning of a line asks for.
inductive LineStart
  | ignored
  | misaligned (column : Nat) (marks : List TokenKind)
  | scan (column : Nat) (marks : List TokenKind) (indents : List Nat) (loneComment : Bool)

-- Blank lines and comments are passed over, but a type comment is scanned wherever it stands.
def lineStart (line : Text) (layout : Layout) : LineStart :=
  if layout.startsStatement then
    let blanks := line.takeWhile Text.isBlank
    match line.drop blanks.length with
    | [] => .ignored
    | c :: rest =>
        if c = '#' then
          if (Lexeme.typeCommentLength? rest).isSome then .scan blanks.length [] layout.indents true
          else .ignored
        else
          match indentMarks (indentWidth blanks) layout.indents with
          | (marks, indents, true) => .scan blanks.length marks indents false
          | (marks, _, false) => .misaligned blanks.length marks
  else .scan 0 [] layout.indents false

def markText (kind : TokenKind) : Text := if kind = .indent then "<INDENT>" else "<DEDENT>"

def markToken (row column : Nat) (kind : TokenKind) : Token :=
  ⟨kind, markText kind, row + 1, column + 1⟩

-- The last two tokens of a text with a lexical error.
def failureTokens (cause : LexError) (row column : Nat) : List Token :=
  [⟨.error, cause.message, row + 1, column + 1⟩, ⟨.endOfFile, [], row + 1, column + 1⟩]

-- The tokens of the lines from a row on.
def tokensFrom (row : Nat) (lines : List Text) (layout : Layout) : List Token :=
  match lines with
  | [] => layout.indents.map (fun _ => markToken row 0 .dedent) ++ [⟨.endOfFile, [], row + 1, 1⟩]
  | line :: below =>
      match lineStart line layout with
      | .ignored => tokensFrom (row + 1) below layout
      | .misaligned column marks =>
          marks.map (markToken row column) ++ failureTokens .invalidIndentation row column
      | .scan column marks indents loneComment =>
          marks.map (markToken row column) ++
            match hs : scanLine ⟨row, column, line.drop column, below⟩ layout.depth with
            | (tokens, .failed cause row column) => tokens ++ failureTokens cause row column
            | (tokens, .done row width rest depth joined) =>
                have : rest.length ≤ below.length := scanLine_below hs
                let newline : List Token :=
                  if loneComment || (depth == 0 && !joined) then
                    [⟨.newline, "\n", row + 1, width + 1⟩]
                  else []
                tokens ++ newline ++ tokensFrom (row + 1) rest ⟨depth, joined, indents⟩
termination_by lines.length

-- The tokens of a source. The list always ends with the end-of-file token.
def tokenize (lines : List Text) : List Token := tokensFrom 0 lines ⟨0, false, []⟩

end TypeStub
