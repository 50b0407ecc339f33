import TypeStub.Proofs.Token.Margin
import TypeStub.Proofs.Token.Spelling

namespace TypeStub

-- The widths of so many nested blocks, the innermost first, each four wider than the one around it.
def levels : Nat → List Nat
  | 0 => []
  | level + 1 => 4 * (level + 1) :: levels level

-- A line of a statement at a level.
def StartsAt (level : Nat) (line : Text) : Prop :=
  ∃ c rest, line = Text.spaces (4 * level) ++ c :: rest ∧ Text.isBlank c = false ∧ c ≠ '#'

-- Lines that leave every block deeper than a level, if there are any.
def Outdented (level : Nat) : List Text → Prop
  | [] => True
  | [] :: rest => Outdented level rest
  | line :: _ => ∃ outer ≤ level, StartsAt outer line

theorem headD_levels (level : Nat) : (levels level).headD 0 = 4 * level := by
  cases level <;> rfl

theorem indentMarks_levels (outer : Nat) : ∀ more : Nat,
    indentMarks (4 * outer) (levels (outer + more)) =
      (List.replicate more .dedent, levels outer, true) := by
  have hhead : ∀ more : Nat, ¬(levels (outer + more)).headD 0 < 4 * outer := by
    intro more
    rw [headD_levels]
    omega
  intro more
  rw [indentMarks, if_neg (hhead more)]
  have hkept : ((levels (outer + more)).dropWhile (4 * outer < ·)) = levels outer ∧
      (((levels (outer + more)).takeWhile (4 * outer < ·)).map fun _ => TokenKind.dedent) =
        List.replicate more .dedent := by
    induction more with
    | zero => cases outer <;> simp [levels]
    | succ more ih =>
        have hlt : 4 * outer < 4 * (outer + more + 1) := by omega
        rw [← Nat.add_assoc, levels]
        simpa [hlt, List.replicate_succ] using ih
  dsimp only
  rw [hkept.1, hkept.2, headD_levels, beq_self_eq_true]

theorem indentMarks_inner (level : Nat) :
    indentMarks (4 * (level + 1)) (levels level) = ([.indent], levels (level + 1), true) := by
  have hlt : (levels level).headD 0 < 4 * (level + 1) := by
    rw [headD_levels]
    omega
  rw [indentMarks, if_pos hlt]
  rfl

theorem indentWidth_spaces (n : Nat) : indentWidth (Text.spaces n) = n := by
  have h : ∀ width, (Text.spaces n).foldl
      (fun width c => if c = '\t' then (width / 8 + 1) * 8 else width + 1) width = width + n := by
    induction n with
    | zero => exact fun _ => rfl
    | succ n ih =>
        intro width
        rw [Text.spaces, List.replicate_succ, List.foldl_cons]
        exact (ih (width + 1)).trans (by omega)
  exact (h 0).trans (Nat.zero_add n)

theorem lineStart_spaces {level : Nat} {c : Char} {rest : Text} (hb : Text.isBlank c = false)
    (hc : c ≠ '#') (indents : List Nat) {marks : List TokenKind} {inner : List Nat}
    (hm : indentMarks (4 * level) indents = (marks, inner, true)) :
    lineStart (Text.spaces (4 * level) ++ c :: rest) ⟨0, false, indents⟩ =
      .scan (4 * level) marks inner false := by
  have hblanks : (Text.spaces (4 * level) ++ c :: rest).takeWhile Text.isBlank =
      Text.spaces (4 * level) := by
    rw [List.takeWhile_append_of_pos]
    · simp [hb]
    · intro b hm
      rw [Text.spaces, List.mem_replicate] at hm
      rw [hm.2]
      rfl
  have hdrop : (Text.spaces (4 * level) ++ c :: rest).drop (Text.spaces (4 * level)).length =
      c :: rest := List.drop_left ..
  simp only [lineStart, Layout.startsStatement, hblanks, hdrop, hc, indentWidth_spaces, hm]
  simp [Text.spaces]

-- Marks are all that the open blocks add to the tokens of a statement's line.
theorem Margin.line_of_scans {text : Text} {spellings : List Spelling} (hs : Scans text spellings)
    (hd : Balanced spellings) (pad : Text) (row : Nat) (below : List Text) :
    ∃ tokens, tokens.map Token.spelling = spellings ++ [sign .newline] ∧
      ∀ {indents : List Nat} {marks : List TokenKind} {inner : List Nat} {loneComment : Bool},
        lineStart (pad ++ text) ⟨0, false, indents⟩ = .scan pad.length marks inner loneComment →
        Margin.Line ⟨row, (pad ++ text) :: below, ⟨0, false, indents⟩⟩
          (marks.map (markToken row pad.length) ++ tokens) ⟨row + 1, below, ⟨0, false, inner⟩⟩ := by
  obtain ⟨tokens, ht, hscan⟩ := hs row pad.length below 0
  rw [hd] at hscan
  refine ⟨tokens ++ [⟨.newline, "\n", row + 1, pad.length + text.length + 1⟩], ?_, ?_⟩
  · rw [List.map_append, ht]
    rfl
  · intro indents marks inner loneComment hstart
    have hdrop : (pad ++ text).drop pad.length = text := List.drop_left ..
    rw [← hdrop] at hscan
    have hline := Margin.Line.scanned hstart hscan
    simpa [Margin.lineBreak, hdrop] using hline

theorem tokensFrom_line {level : Nat} {c : Char} {rest : Text} {below : List Text}
    {spellings : List Spelling} (hb : Text.isBlank c = false) (hc : c ≠ '#')
    (hs : Scans (c :: rest) spellings) (hd : Balanced spellings) (row : Nat) :
    ∃ tokens, tokens.map Token.spelling = spellings ++ [sign .newline] ∧
      ∀ {indents : List Nat} {marks : List TokenKind} {inner : List Nat},
        indentMarks (4 * level) indents = (marks, inner, true) →
        tokensFrom row ((Text.spaces (4 * level) ++ c :: rest) :: below) ⟨0, false, indents⟩ =
          marks.map (markToken row (4 * level)) ++
            (tokens ++ tokensFrom (row + 1) below ⟨0, false, inner⟩) := by
  obtain ⟨tokens, ht, hline⟩ := Margin.line_of_scans hs hd (Text.spaces (4 * level)) row below
  have hlength : (Text.spaces (4 * level)).length = 4 * level := List.length_replicate
  rw [hlength] at hline
  refine ⟨tokens, ht, fun hm => ?_⟩
  have heq := (hline (lineStart_spaces hb hc _ hm)).tokens_eq
  rw [List.append_assoc] at heq
  exact heq

theorem indentMarks_self (level : Nat) :
    indentMarks (4 * level) (levels level) = ([], levels level, true) :=
  indentMarks_levels level 0

theorem tokensFrom_blank (row : Nat) (below : List Text) (indents : List Nat) :
    tokensFrom row ([] :: below) ⟨0, false, indents⟩ =
      tokensFrom (row + 1) below ⟨0, false, indents⟩ := by
  rw [tokensFrom]
  rfl

-- A deeper block closes where lines that leave it begin.
theorem tokensFrom_dedent {level : Nat} {below : List Text} (h : Outdented level below) :
    ∀ row, ∃ mark : Token, mark.spelling = sign .dedent ∧
      tokensFrom row below ⟨0, false, levels (level + 1)⟩ =
        mark :: tokensFrom row below ⟨0, false, levels level⟩ := by
  induction below with
  | nil =>
      intro row
      refine ⟨markToken row 0 .dedent, rfl, ?_⟩
      rw [tokensFrom, tokensFrom]
      rfl
  | cons line rest ih =>
      intro row
      cases line with
      | nil =>
          rw [tokensFrom_blank, tokensFrom_blank]
          exact ih h (row + 1)
      | cons c more =>
          obtain ⟨outer, hle, first, content, hline, hb, hc⟩ := h
          obtain ⟨deeper, rfl⟩ := Nat.exists_eq_add_of_le hle
          refine ⟨markToken row (4 * outer) .dedent, rfl, ?_⟩
          rw [hline, tokensFrom, tokensFrom,
            lineStart_spaces hb hc _ (indentMarks_levels outer deeper), Nat.add_assoc,
            lineStart_spaces hb hc _ (indentMarks_levels outer (deeper + 1))]
          rfl

-- A block opens at its first line.
theorem tokensFrom_indent {level : Nat} {line : Text} (h : StartsAt (level + 1) line)
    (below : List Text) (row : Nat) : ∃ mark : Token, mark.spelling = sign .indent ∧
      tokensFrom row (line :: below) ⟨0, false, levels level⟩ =
        mark :: tokensFrom row (line :: below) ⟨0, false, levels (level + 1)⟩ := by
  obtain ⟨first, content, rfl, hb, hc⟩ := h
  refine ⟨markToken row (4 * (level + 1)) .indent, rfl, ?_⟩
  rw [tokensFrom, tokensFrom, lineStart_spaces hb hc _ (indentMarks_inner level),
    lineStart_spaces hb hc _ (indentMarks_self (level + 1))]
  rfl

-- Lines of a level that give such tokens, the blocks in them closed again.
def Lays (level : Nat) (lines : List Text) (spellings : List Spelling) : Prop :=
  ∀ row below, Outdented level below → ∃ tokens row', tokens.map Token.spelling = spellings ∧
    tokensFrom row (lines ++ below) ⟨0, false, levels level⟩ =
      tokens ++ tokensFrom row' below ⟨0, false, levels level⟩

theorem Lays.blank (level : Nat) : Lays level [[]] [] := fun row below _ =>
  ⟨[], row + 1, rfl, tokensFrom_blank row below _⟩

theorem Lays.append {level : Nat} {lines more : List Text} {spellings others : List Spelling}
    (h : Lays level lines spellings) (hm : Lays level more others)
    (hstart : ∀ below, Outdented level below → Outdented level (more ++ below)) :
    Lays level (lines ++ more) (spellings ++ others) := by
  intro row below hb
  obtain ⟨tokens, row₁, ht, hfirst⟩ := h row (more ++ below) (hstart below hb)
  obtain ⟨later, row₂, hl, hsecond⟩ := hm row₁ below hb
  refine ⟨tokens ++ later, row₂, ?_, ?_⟩
  · rw [List.map_append, ht, hl]
  · rw [List.append_assoc, hfirst, hsecond, List.append_assoc]

-- One line, whatever follows it.
def LaysLine (level : Nat) (line : Text) (spellings : List Spelling) : Prop :=
  ∀ row below, ∃ tokens, tokens.map Token.spelling = spellings ∧
    tokensFrom row (line :: below) ⟨0, false, levels level⟩ =
      tokens ++ tokensFrom (row + 1) below ⟨0, false, levels level⟩

theorem LaysLine.of_scans {level : Nat} {c : Char} {rest : Text} {spellings : List Spelling}
    (hb : Text.isBlank c = false) (hc : c ≠ '#') (hs : Scans (c :: rest) spellings)
    (hd : Balanced spellings) :
    LaysLine level (Text.spaces (4 * level) ++ c :: rest) (spellings ++ [sign .newline]) := by
  intro row below
  obtain ⟨tokens, ht, hfrom⟩ := tokensFrom_line hb hc hs hd row
  exact ⟨tokens, ht, hfrom (indentMarks_self level)⟩

theorem LaysLine.lays {level : Nat} {line : Text} {spellings : List Spelling}
    (h : LaysLine level line spellings) : Lays level [line] spellings := by
  intro row below _
  obtain ⟨tokens, ht, hfrom⟩ := h row below
  exact ⟨tokens, row + 1, ht, hfrom⟩

theorem Outdented.succ {level : Nat} {below : List Text} (h : Outdented level below) :
    Outdented (level + 1) below := by
  induction below with
  | nil => trivial
  | cons line rest ih =>
      cases line with
      | nil => exact ih h
      | cons c more =>
          obtain ⟨outer, hle, hs⟩ := h
          exact ⟨outer, Nat.le_succ_of_le hle, hs⟩

-- A line and the block under it.
theorem Lays.block {level : Nat} {header first : Text} {rest : List Text}
    {spellings inner : List Spelling} (hh : LaysLine level header spellings)
    (hf : StartsAt (level + 1) first) (hb : Lays (level + 1) (first :: rest) inner) :
    Lays level (header :: first :: rest)
      (spellings ++ (sign .indent :: inner ++ [sign .dedent])) := by
  intro row below hout
  obtain ⟨tokens, ht, hheader⟩ := hh row (first :: rest ++ below)
  obtain ⟨indent, hi, hopen⟩ := tokensFrom_indent hf (rest ++ below) (row + 1)
  obtain ⟨body, row', hbody, hinner⟩ := hb (row + 1) below hout.succ
  obtain ⟨dedent, hd, hclose⟩ := tokensFrom_dedent hout row'
  refine ⟨tokens ++ (indent :: body ++ [dedent]), row', ?_, ?_⟩
  · simp [ht, hi, hbody, hd]
  · rw [List.cons_append, hheader, List.cons_append, hopen, ← List.cons_append, hinner, hclose]
    simp

theorem splitLines_line {line : Text} (h : '\n' ∉ line) (hne : line ≠ []) :
    Text.splitLines line = [line] := by
  induction line with
  | nil => exact absurd rfl hne
  | cons c rest ih =>
      have hc : c ≠ '\n' := by
        rintro rfl
        simp at h
      rw [Text.splitLines, if_neg hc]
      cases rest with
      | nil => rfl
      | cons next more =>
          rw [ih (fun hm => h (List.mem_cons_of_mem _ hm)) (by simp)]

theorem splitLines_append {line : Text} (h : '\n' ∉ line) (rest : Text) :
    Text.splitLines (line ++ '\n' :: rest) = line :: Text.splitLines rest := by
  induction line with
  | nil => simp [Text.splitLines]
  | cons c more ih =>
      have hc : c ≠ '\n' := by
        rintro rfl
        simp at h
      rw [List.cons_append, Text.splitLines, if_neg hc, ih fun hm => h (List.mem_cons_of_mem _ hm)]

-- A text joins its lines. An empty one at the end makes no difference to them.
theorem splitLines_joinWith {lines : List Text} (h : ∀ line ∈ lines, '\n' ∉ line)
    (hlast : lines.getLast? ≠ some []) (hne : lines ≠ []) :
    Text.splitLines (Text.joinWith "\n" lines) = lines ∧
      Text.splitLines (Text.joinWith "\n" (lines ++ [[]])) = lines := by
  induction lines with
  | nil => exact absurd rfl hne
  | cons line rest ih =>
      have hline := h line (by simp)
      cases rest with
      | nil =>
          have hl : line ≠ [] := by simpa using hlast
          refine ⟨?_, ?_⟩
          · rw [Text.joinWith_singleton, splitLines_line hline hl]
          · rw [List.singleton_append, Text.joinWith_cons, Text.joinWith_singleton, List.append_nil]
            exact splitLines_append hline []
      | cons next more =>
          obtain ⟨hi, ht⟩ := ih (fun l hm => h l (List.mem_cons_of_mem _ hm))
            (by simpa using hlast) (by simp)
          refine ⟨?_, ?_⟩
          · rw [Text.joinWith_cons, List.append_assoc]
            exact (splitLines_append hline _).trans (congrArg _ hi)
          · rw [List.cons_append, List.cons_append, Text.joinWith_cons, List.append_assoc]
            exact (splitLines_append hline _).trans (congrArg _ ht)

theorem sourceLines_eq {source : Text} {lines : List Text} (h : Text.splitLines source = lines)
    (hl : ∀ line ∈ lines, Inline line) : sourceLines source = lines := by
  rw [sourceLines, h]
  refine (List.map_congr_left fun line hm => ?_).trans (List.map_id _)
  rw [if_neg (hl line hm).2]
  rfl

-- The tokens of a text by those of its lines.
theorem tokenize_spelling {source : Text} {lines : List Text} {spellings : List Spelling}
    (h : sourceLines source = lines) (hl : Lays 0 lines spellings) :
    (tokenize (sourceLines source)).map Token.spelling = spellings ++ [sign .endOfFile] := by
  obtain ⟨tokens, row, ht, hfrom⟩ := hl 0 [] trivial
  rw [List.append_nil] at hfrom
  rw [h, tokenize]
  show (tokensFrom 0 lines ⟨0, false, levels 0⟩).map Token.spelling = _
  rw [hfrom, List.map_append, ht, tokensFrom]
  rfl

end TypeStub
