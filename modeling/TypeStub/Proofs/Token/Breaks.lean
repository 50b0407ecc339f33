import TypeStub.Proofs.Throughout
import TypeStub.Proofs.Token.Account
import TypeStub.Proofs.Token.Joined

-- Where a logical line may end, and where blocks may open and close.
namespace TypeStub

-- A statement may start on a row after tokens: no bracket is open, and the row before is not
-- continued.
structure MayStart (lines : List Text) (tokens : List Token) (row : Nat) : Prop where
  brackets : openBrackets tokens = 0
  joined : ∀ previous, row = previous + 1 → ¬ Continued lines tokens previous

-- Tokens that end with a type comment on a line of its own and what follows it there. The comment
-- stands where a statement may start.
def OnLoneComment (lines : List Text) (tokens : List Token) : Prop :=
  ∃ front t back, tokens = front ++ t :: back ∧ t.kind = .typeComment ∧
    LineStart.Blank (rowText lines t.start.row) t.start.column ∧
    MayStart lines front t.start.row ∧ ∀ u ∈ back, u.kind ≠ .newline

-- How a token keeps to the layout of a source. A line break stands outside brackets at the end of a
-- line that is not continued, or it ends a lone type comment. A mark stands where a statement may
-- start, or it closes a block at the end of the source.
structure KeepsLayout (lines : List Text) (front : List Token) (t : Token) (back : List Token) :
    Prop where
  newline : t.kind = .newline →
    (openBrackets front = 0 ∧ ¬ Continued lines front t.start.row) ∨ OnLoneComment lines front
  marks : t.kind = .indent ∨ t.kind = .dedent → MayStart lines front t.start.row ∨
    ∀ u ∈ t :: back, u.kind = .dedent ∨ u.kind = .endOfFile

theorem MayStart.append {lines : List Text} {tokens more : List Token} {row : Nat}
    (hm : MayStart lines tokens row) (h : ∀ t ∈ more, t.kind.isSourced = false) :
    MayStart lines (tokens ++ more) row where
  brackets := (openBrackets_unsourced h).trans hm.brackets
  joined previous hrow hc := hm.joined previous hrow ((continued_unsourced h).mp hc)

-- A type comment that stands first is the first token of its scan.
theorem scanLine_comment {c : Cursor} {depth : Nat} {tokens : List Token} {ending : LineEnd}
    {text : Text} {n : Nat} (hrest : c.rest = '#' :: text)
    (hcomment : Lexeme.typeCommentLength? text = some n)
    (h : scanLine c depth = (tokens, ending)) :
    ∃ t more, tokens = t :: more ∧ t.kind = .typeComment ∧ t.start = c.spot := by
  have hlex : Lexeme.ofText '#' text = .token .typeComment n := by
    simp [Lexeme.ofText, hcomment, Text.isBlank]
  rw [scanLine_token (Cursor.step_of_token hrest hlex)] at h
  obtain ⟨rfl, -⟩ := Prod.mk.inj h
  exact ⟨_, _, rfl, rfl, rfl⟩

namespace LineStart

variable {line : Text} {layout : Layout}

-- Elsewhere than at the start of a statement a line is scanned as it is.
theorem lineStart_within (h : layout.startsStatement = false) :
    lineStart line layout = .scan 0 [] layout.indents false := by
  rw [lineStart, h]
  rfl

theorem starts_of_ignored (h : lineStart line layout = .ignored) :
    layout.startsStatement = true := by
  by_contra hno
  rw [lineStart_within (Bool.eq_false_iff.mpr hno)] at h
  cases h

theorem starts_of_misaligned {column : Nat} {marks : List TokenKind}
    (h : lineStart line layout = .misaligned column marks) : layout.startsStatement = true := by
  by_contra hno
  rw [lineStart_within (Bool.eq_false_iff.mpr hno)] at h
  cases h

theorem starts_of_marks {column : Nat} {marks : List TokenKind} {indents : List Nat}
    {loneComment : Bool} (h : lineStart line layout = .scan column marks indents loneComment)
    (hm : marks ≠ []) : layout.startsStatement = true := by
  by_contra hno
  rw [lineStart_within (Bool.eq_false_iff.mpr hno)] at h
  cases h
  exact hm rfl

-- A lone type comment carries no marks.
theorem loneComment_of_scan {column : Nat} {marks : List TokenKind} {indents : List Nat}
    (h : lineStart line layout = .scan column marks indents true) :
    layout.startsStatement = true ∧ marks = [] ∧
      ∃ text n, line.drop column = '#' :: text ∧ Lexeme.typeCommentLength? text = some n := by
  by_cases hstarts : layout.startsStatement = true
  · rw [lineStart, if_pos hstarts] at h
    dsimp only at h
    split at h
    · cases h
    · rename_i c rest hdrop
      split at h
      · rename_i hhash
        split at h
        · rename_i hcomment
          obtain ⟨rfl, rfl, -⟩ := (LineStart.scan.injEq ..).mp h
          obtain ⟨n, hn⟩ := Option.isSome_iff_exists.mp hcomment
          exact ⟨hstarts, rfl, rest, n, hhash ▸ hdrop, hn⟩
        · cases h
      · split at h
        · cases h
        · cases h
  · rw [lineStart_within (Bool.eq_false_iff.mpr hstarts)] at h
    cases h

end LineStart

theorem KeepsLayout.plain {lines : List Text} {front back : List Token} {t : Token}
    (h : t.kind ≠ .newline ∧ t.kind ≠ .indent ∧ t.kind ≠ .dedent) :
    KeepsLayout lines front t back where
  newline hn := absurd hn h.1
  marks hm := by
    rcases hm with hm | hm
    · exact absurd hm h.2.1
    · exact absurd hm h.2.2

theorem plain_sourced {t : Token} (h : t.kind.isSourced = true) :
    t.kind ≠ .newline ∧ t.kind ≠ .indent ∧ t.kind ≠ .dedent := by
  refine ⟨?_, ?_, ?_⟩ <;> intro hk <;> rw [hk] at h <;> cases h

namespace Margin

-- A margin after tokens of a source: the layout knows the open brackets and whether the row before
-- is continued, and the tokens end above.
structure Follows (lines : List Text) (earlier : List Token) (m : Margin) : Prop where
  on : m.On lines
  brackets : openBrackets earlier = m.layout.depth
  joined : m.layout.joined = true ↔
    ∃ previous, m.row = previous + 1 ∧ Continued lines earlier previous
  above : ∀ t ∈ earlier, t.kind.isSourced = true → t.finish.row < m.row

theorem Follows.initial (lines : List Text) : Follows lines [] (initial lines) where
  on := .initial lines
  brackets := rfl
  joined := by simp [Margin.initial]
  above := by simp

section

variable {lines : List Text} {earlier found : List Token} {m next : Margin}

theorem Follows.mayStart (h : Follows lines earlier m) (hs : m.layout.startsStatement = true) :
    MayStart lines earlier m.row := by
  rw [Layout.startsStatement, Bool.and_eq_true, beq_iff_eq, Bool.not_eq_true'] at hs
  refine ⟨h.brackets.trans hs.1, fun previous hrow hc => ?_⟩
  have hjoined := h.joined.mpr ⟨previous, hrow, hc⟩
  rw [hs.2] at hjoined
  cases hjoined

-- Rows from a margin on are not reached by the tokens before it.
theorem Follows.reachOn_eq (h : Follows lines earlier m) {row column : Nat} (hrow : m.row ≤ row) :
    reachOn row column earlier = column := by
  refine reachOn_elsewhere fun t ht hs heq => ?_
  have habove := h.above t ht hs
  omega

section

variable {row column last width depth : Nat} {line : Text} {below rest : List Text}
  {layout : Layout} {marks : List TokenKind} {indents : List Nat} {loneComment joined : Bool}

theorem Follows.line_eq (hf : Follows lines earlier ⟨row, line :: below, layout⟩) :
    rowText lines row = line := (Cursor.On.ofDrop hf.on.ahead).rest

-- A row that is passed over does not go on.
theorem Follows.not_continued (hf : Follows lines earlier ⟨row, line :: below, layout⟩)
    (hstart : lineStart line layout = .ignored) : ¬ Continued lines earlier row := by
  obtain ⟨column, hblank, hrest⟩ := LineStart.fits_of_eq hstart
  have hreach : reachOn row 0 earlier = 0 := hf.reachOn_eq (Nat.le_refl row)
  rw [Continued, hreach, hf.line_eq, List.drop_zero, ← joins_drop hblank]
  rcases hrest with hnil | ⟨rest, hcomment, -⟩
  · rw [hnil]
    exact not_joins_nil
  · rw [hcomment, joins_mark rfl]
    simp

theorem unsourced_marks {start kept : List Nat} (h : Shift start marks kept) (row column : Nat) :
    ∀ t ∈ marks.map (markToken row column), t.kind.isSourced = false := fun t ht =>
  (h.marksAt row column t ht).unsourced

theorem unsourced_lineBreak :
    ∀ t ∈ lineBreak loneComment row width depth joined, t.kind.isSourced = false := by
  intro t ht
  unfold lineBreak at ht
  split at ht
  · rw [List.mem_singleton.mp ht]
    rfl
  · exact absurd ht List.not_mem_nil

-- What is known where a scan comes to the end of a line, before the break.
structure Ends (lines : List Text) (tokens : List Token) (row depth : Nat) (joined : Bool) : Prop
    where
  brackets : openBrackets tokens = depth
  joined : joined = true ↔ Continued lines tokens row
  within : ∀ t ∈ tokens, t.kind.isSourced = true → t.finish.row ≤ row

theorem Follows.ends (hl : ∀ line ∈ lines, '\n' ∉ line)
    (hf : Follows lines earlier ⟨row, line :: below, layout⟩)
    (hstart : lineStart line layout = .scan column marks indents loneComment)
    (hscan : scanLine ⟨row, column, line.drop column, below⟩ layout.depth =
      (found, .done last width rest depth joined)) :
    Ends lines (earlier ++ marks.map (markToken row column) ++ found) last depth joined := by
  obtain ⟨hblank, hshift⟩ := LineStart.fits_of_eq hstart
  have hon := hf.on.cursor hblank
  have hmarks := unsourced_marks hshift row column
  have htiles := (scanLine_tiles hl hon hscan).1
  have hrow : row ≤ last := by
    have hle := Spot.le_iff.mp htiles.le
    simp only [LineEnd.spot, Cursor.spot] at hle
    omega
  refine ⟨?_, ?_, fun t ht hs => ?_⟩
  · rw [openBrackets_append, openBrackets_unsourced hmarks, hf.brackets]
    exact (scanLine_depth hscan).symm
  · have hreach : reachOn last 0 (earlier ++ marks.map (markToken row column)) = 0 := by
      rw [reachOn_append, hf.reachOn_eq hrow]
      exact reachOn_elsewhere fun t ht hs => absurd hs (by simp [hmarks t ht])
    rw [Continued, reachOn_append, hreach]
    refine scanLine_joins hl hon hscan fun hlast => ?_
    obtain rfl : row = last := hlast
    rw [hf.line_eq]
    exact (joins_drop hblank).symm
  · rcases List.mem_append.mp ht with ht | ht
    · rcases List.mem_append.mp ht with ht | ht
      · exact (hf.above t ht hs).le.trans hrow
      · exact absurd hs (by simp [hmarks t ht])
    · have hle := Spot.le_iff.mp (htiles.finish_le ht hs)
      simp only [LineEnd.spot] at hle
      omega

end

theorem Line.follows (hl : ∀ line ∈ lines, '\n' ∉ line) (hf : Follows lines earlier m)
    (h : Line m found next) : Follows lines (earlier ++ found) next := by
  have hnext := (h.tiles hl hf.on).2
  cases h with
  | @ignored row line below layout hstart =>
      rw [List.append_nil]
      have hstarts := LineStart.starts_of_ignored hstart
      refine ⟨hnext, hf.brackets, ?_, fun t ht hs => Nat.lt_succ_of_lt (hf.above t ht hs)⟩
      constructor
      · intro hjoined
        simp [Layout.startsStatement, show layout.joined = true from hjoined] at hstarts
      · rintro ⟨previous, hrow, hc⟩
        obtain rfl := Nat.succ.inj hrow
        exact absurd hc (hf.not_continued hstart)
  | @scanned row column last width depth line below rest layout marks indents lone joined found
      hstart hscan =>
      have hends := hf.ends hl hstart hscan
      have hbreak : ∀ t ∈ lineBreak lone last width depth joined, t.kind.isSourced = false :=
        unsourced_lineBreak
      rw [← List.append_assoc, ← List.append_assoc]
      refine ⟨hnext, ?_, ?_, fun t ht hs => ?_⟩
      · rw [openBrackets_unsourced hbreak]
        exact hends.brackets
      · rw [hends.joined, ← continued_unsourced hbreak]
        constructor
        · exact fun hc => ⟨last, rfl, hc⟩
        · rintro ⟨previous, hrow, hc⟩
          obtain rfl := Nat.succ.inj hrow
          exact hc
      · rcases List.mem_append.mp ht with ht | ht
        · exact Nat.lt_succ_of_le (hends.within t ht hs)
        · exact absurd hs (by simp [hbreak t ht])

-- Marks stand where a statement may start.
theorem Follows.keeps_marks (hf : Follows lines earlier m) {marks : List TokenKind}
    {start kept : List Nat} (hshift : Shift start marks kept) (column : Nat)
    (hstarts : marks ≠ [] → m.layout.startsStatement = true) (after : List Token) :
    Throughout (fun front t back => KeepsLayout lines (earlier ++ front) t (back ++ after))
      (marks.map (markToken m.row column)) := by
  intro front t back heq
  have hmem : t ∈ marks.map (markToken m.row column) := by simp [heq]
  obtain ⟨kind, hkind, rfl⟩ := List.mem_map.mp hmem
  have hfront : ∀ u ∈ front, u.kind.isSourced = false := fun u hu =>
    unsourced_marks hshift m.row column u (by rw [heq]; exact List.mem_append_left _ hu)
  have hmay := hf.mayStart (hstarts (List.ne_nil_of_mem hkind))
  refine ⟨fun hn => ?_, fun _ => .inl (hmay.append hfront)⟩
  rcases hshift.kinds hkind with rfl | rfl
  · cases hn
  · cases hn

theorem keeps_scanned {c : Cursor} {depth : Nat} {ending : LineEnd} (after : List Token)
    (hscan : scanLine c depth = (found, ending)) :
    Throughout (fun front t back => KeepsLayout lines (earlier ++ front) t (back ++ after))
      found := by
  refine throughout_of_mem fun t ht front back => .plain (plain_sourced ?_)
  exact scanLine_sourced c depth t (by rw [hscan]; exact ht)

-- The break after a scan ends a line that is not continued, or a lone type comment.
theorem Follows.keeps_lineBreak (hl : ∀ line ∈ lines, '\n' ∉ line)
    {row column last width depth : Nat} {line : Text} {below rest : List Text} {layout : Layout}
    {marks : List TokenKind} {indents : List Nat} {loneComment joined : Bool}
    (hf : Follows lines earlier ⟨row, line :: below, layout⟩)
    (hstart : lineStart line layout = .scan column marks indents loneComment)
    (hscan : scanLine ⟨row, column, line.drop column, below⟩ layout.depth =
      (found, .done last width rest depth joined)) (after : List Token) :
    Throughout (fun front t back => KeepsLayout lines
        (earlier ++ marks.map (markToken row column) ++ found ++ front) t (back ++ after))
      (lineBreak loneComment last width depth joined) := by
  unfold lineBreak
  split
  · rename_i hbreak
    refine throughout_cons.mpr ⟨⟨fun _ => ?_, fun hm => ?_⟩, throughout_nil⟩
    · rw [List.append_nil]
      by_cases hlone : loneComment = true
      · right
        rw [hlone] at hstart
        obtain ⟨hstarts, rfl, text, n, hrest, hcomment⟩ := LineStart.loneComment_of_scan hstart
        obtain ⟨t, more, rfl, hkind, hspot⟩ := scanLine_comment hrest hcomment hscan
        have hblank := (LineStart.fits_of_eq hstart).1
        refine ⟨earlier, t, more, by simp, hkind, ?_, ?_, fun u hu => ?_⟩
        · rw [hspot]
          show LineStart.Blank (rowText lines row) column
          rw [hf.line_eq]
          exact hblank
        · rw [hspot]
          exact hf.mayStart hstarts
        · have hs := scanLine_sourced _ _ u (by rw [hscan]; exact List.mem_cons_of_mem _ hu)
          exact (plain_sourced hs).1
      · left
        have hends := hf.ends hl hstart hscan
        rw [Bool.eq_false_iff.mpr hlone, Bool.false_or, Bool.and_eq_true, beq_iff_eq,
          Bool.not_eq_true'] at hbreak
        refine ⟨hends.brackets.trans hbreak.1, fun hc => ?_⟩
        have hjoined := hends.joined.mpr hc
        rw [hbreak.2] at hjoined
        cases hjoined
    · rcases hm with hm | hm
      · cases hm
      · cases hm
  · exact throughout_nil

theorem Line.keeps (hl : ∀ line ∈ lines, '\n' ∉ line) (hf : Follows lines earlier m)
    (h : Line m found next) (after : List Token) :
    Throughout (fun front t back => KeepsLayout lines (earlier ++ front) t (back ++ after))
      found := by
  cases h with
  | ignored => exact throughout_nil
  | scanned hstart hscan =>
      obtain ⟨-, hshift⟩ := LineStart.fits_of_eq hstart
      rw [throughout_append, throughout_append]
      refine ⟨?_, ?_, ?_⟩
      · simp only [List.append_assoc]
        exact hf.keeps_marks hshift _ (LineStart.starts_of_marks hstart) _
      · simp only [← List.append_assoc]
        simp only [List.append_assoc _ _ after]
        exact keeps_scanned _ hscan
      · simp only [← List.append_assoc]
        exact hf.keeps_lineBreak hl hstart hscan after

theorem keeps_failureTokens (cause : LexError) (row column : Nat) :
    Throughout (fun front t back => KeepsLayout lines (earlier ++ front) t back)
      (failureTokens cause row column) := by
  refine throughout_of_mem fun t ht front back => .plain ?_
  simp only [failureTokens, List.mem_cons, List.not_mem_nil, or_false] at ht
  rcases ht with rfl | rfl <;> simp

-- The marks at the end of a source close its blocks.
theorem Stops.keeps (hf : Follows lines earlier m) (h : Stops m found) :
    Throughout (fun front t back => KeepsLayout lines (earlier ++ front) t back) found := by
  cases h with
  | @done row layout =>
      intro front t back heq
      have hclosing : ∀ u ∈ front ++ t :: back, u.kind = .dedent ∨ u.kind = .endOfFile := by
        rw [← heq]
        intro u hu
        rcases List.mem_append.mp hu with hu | hu
        · obtain ⟨-, -, rfl⟩ := List.mem_map.mp hu
          exact .inl rfl
        · rw [List.mem_singleton.mp hu]
          exact .inr rfl
      refine ⟨fun hn => ?_, fun _ => .inr fun u hu => hclosing u (List.mem_append_right _ hu)⟩
      have ht := hclosing t (by simp)
      rw [hn] at ht
      simp at ht
  | misaligned hstart =>
      obtain ⟨-, kept, hshift⟩ := LineStart.fits_of_eq hstart
      rw [throughout_append]
      refine ⟨hf.keeps_marks hshift _ (fun _ => LineStart.starts_of_misaligned hstart) _, ?_⟩
      simp only [← List.append_assoc]
      exact keeps_failureTokens _ _ _
  | failed hstart hscan =>
      obtain ⟨-, hshift⟩ := LineStart.fits_of_eq hstart
      rw [throughout_append, throughout_append]
      refine ⟨hf.keeps_marks hshift _ (LineStart.starts_of_marks hstart) _, ?_, ?_⟩
      · simp only [← List.append_assoc]
        exact keeps_scanned _ hscan
      · simp only [← List.append_assoc]
        exact keeps_failureTokens _ _ _

-- One line keeps to the layout, and from there on the lines below do.
theorem tokens_keep (hl : ∀ line ∈ lines, '\n' ∉ line) (m : Margin) :
    ∀ earlier, Follows lines earlier m →
      Throughout (fun front => KeepsLayout lines (earlier ++ front)) m.tokens := by
  refine tokens_induction (motive := fun m tokens => ∀ earlier, Follows lines earlier m →
    Throughout (fun front => KeepsLayout lines (earlier ++ front)) tokens) ?_ ?_ m
  · intro m found hstops earlier hf
    exact hstops.keeps hf
  · intro m next found hline ih earlier hf
    rw [throughout_append]
    refine ⟨hline.keeps hl hf next.tokens, ?_⟩
    simp only [← List.append_assoc]
    exact ih (earlier ++ found) (hline.follows hl hf)

end

end Margin

-- Line breaks and marks keep to the layout, whatever the source.
theorem tokenize_breaks (source : Text) :
    Throughout (KeepsLayout (sourceLines source)) (tokenize (sourceLines source)) :=
  Margin.tokens_keep (sourceLines_newline source) (.initial _) [] (.initial _)

-- The break of a statement over three lines, joined by a bracket and by a backslash.
theorem tokenize_breaks_joined :
    let lines := sourceLines "x = [a,\n  b] \\\n  # note\n"
    ∃ front t back, tokenize lines = front ++ t :: back ∧ t = ⟨.newline, "\n", 3, 9⟩ ∧
      KeepsLayout lines front t back := by
  intro lines
  have hsplit : tokenize lines = (tokenize lines).take 7 ++ ⟨.newline, "\n", 3, 9⟩ ::
      [⟨.endOfFile, [], 4, 1⟩] := by decide +kernel
  exact ⟨_, _, _, hsplit, rfl, tokenize_breaks _ _ _ _ hsplit⟩

-- A type comment on a line of its own gets its break inside an open bracket.
theorem tokenize_breaks_comment : ¬ ∀ source : Text,
    Throughout (fun front t _ => t.kind = .newline → openBrackets front = 0 ∧
      ¬ Continued (sourceLines source) front t.start.row) (tokenize (sourceLines source)) := by
  intro h
  have hsplit : tokenize (sourceLines "# type: (\n") =
      [⟨.typeComment, "# type:", 1, 1⟩, ⟨.leftParen, "(", 1, 9⟩] ++
        ⟨.newline, "\n", 1, 10⟩ :: [⟨.endOfFile, [], 2, 1⟩] := by decide +kernel
  exact absurd (h "# type: (\n" _ _ _ hsplit rfl).1 (by decide)

end TypeStub
