import TypeStub.Proofs.Token.Account

namespace TypeStub

-- How many blanks a line starts with.
def leadingBlanks (line : Text) : Nat := (line.takeWhile Text.isBlank).length

-- A spot in the part of its line that an excerpt shows: not in the blanks at its start, and at
-- most one past its end. The line after the last one is empty.
structure Shown (lines : List Text) (spot : Spot) : Prop where
  row : spot.row ≤ lines.length
  blanks : leadingBlanks (rowText lines spot.row) ≤ spot.column
  column : spot.column ≤ (rowText lines spot.row).length

section

variable {lines : List Text} {row column : Nat}

theorem leadingBlanks_le_length (line : Text) : leadingBlanks line ≤ line.length :=
  (List.takeWhile_prefix Text.isBlank).length_le

-- The blanks at the start of a line end at the latest before another character.
theorem leadingBlanks_le {written : Text} {n : Nat} {c : Char} (hc : written[n]? = some c)
    (hb : Text.isBlank c = false) : leadingBlanks written ≤ n := by
  by_contra hn
  have hlt : n < (written.takeWhile Text.isBlank).length := Nat.lt_of_not_le hn
  have hhead : (written.takeWhile Text.isBlank)[n]? = some c := by
    have htake := List.prefix_iff_eq_take.mp (List.takeWhile_prefix (l := written) Text.isBlank)
    rw [htake, List.getElem?_take_of_lt hlt, hc]
  have hall := List.all_eq_true.mp List.all_takeWhile c (List.mem_of_getElem? hhead)
  exact absurd hall (by simp [hb])

theorem Shown.ofByte {c : Char} (hc : byteAt? lines ⟨row, column⟩ = some c)
    (hb : Text.isBlank c = false) (hrow : row ≤ lines.length) : Shown lines ⟨row, column⟩ :=
  ⟨hrow, leadingBlanks_le hc hb, (List.getElem?_eq_some_iff.mp hc).1.le⟩

theorem Shown.lineEnd (hrow : row ≤ lines.length) : Shown lines ⟨row, (rowText lines row).length⟩ :=
  ⟨hrow, leadingBlanks_le_length _, Nat.le_refl _⟩

theorem Shown.lineStart {line : Text} (hline : rowText lines row = line) (hrow : row ≤ lines.length) :
    Shown lines ⟨row, leadingBlanks line⟩ := by
  subst hline
  exact ⟨hrow, Nat.le_refl _, leadingBlanks_le_length _⟩

end

namespace Cursor

variable {lines : List Text} {c next : Cursor}

-- A step that is neither over a blank nor to the end of the line is at another character.
theorem On.shown (hon : c.On lines) (hb : ∀ next, c.step ≠ .blank next)
    (he : ∀ joined, c.step ≠ .lineEnd joined) : Shown lines c.spot := by
  cases hr : c.rest with
  | nil => exact absurd (by simp [step, hr]) (he false)
  | cons first rest =>
      refine Shown.ofByte (c := first) ?_ ?_ hon.row.le
      · have hat := hon.byteAt 0
        rwa [hr] at hat
      · by_contra hblank
        exact hb (c.skip 1) (by simp [step, hr, Lexeme.ofText, hblank])

end Cursor

theorem scanLine_shown {lines : List Text} (hl : ∀ line ∈ lines, '\n' ∉ line) {c : Cursor}
    {depth : Nat} {tokens : List Token} {ending : LineEnd} (hon : c.On lines)
    (h : scanLine c depth = (tokens, ending)) :
    (∀ t ∈ tokens, Shown lines t.start) ∧ Shown lines ending.spot := by
  fun_induction scanLine c depth generalizing tokens with
  | case1 c depth kind text next hs _ more last hscan ih =>
      obtain ⟨rfl, rfl⟩ := Prod.mk.inj h
      obtain ⟨hstands, -, hnext⟩ := hon.step_token hl hs
      obtain ⟨hmore, hlast⟩ := ih hnext hscan
      have hshown : Shown lines c.spot := hon.shown (by simp [hs]) (by simp [hs])
      exact ⟨List.forall_mem_cons.mpr ⟨hstands.start_eq ▸ hshown, hmore⟩, hlast⟩
  | case2 c depth next hs _ ih => exact ih (hon.step_blank hs).2 h
  | case3 c depth joined hs =>
      obtain ⟨rfl, rfl⟩ := Prod.mk.inj h
      rw [LineEnd.spot, hon.lineEnd_eq]
      exact ⟨by simp, .lineEnd hon.row.le⟩
  | case4 c depth cause hs =>
      obtain ⟨rfl, rfl⟩ := Prod.mk.inj h
      exact ⟨by simp, hon.shown (by simp [hs]) (by simp [hs])⟩

-- The marks of a line, and a complaint about its indentation, stand after its blanks.
def LineStart.AfterBlanks (line : Text) : LineStart → Prop
  | .ignored => True
  | .misaligned column _ => column = leadingBlanks line
  | .scan column marks _ _ => marks = [] ∨ column = leadingBlanks line

theorem lineStart_afterBlanks (line : Text) (layout : Layout) :
    (lineStart line layout).AfterBlanks line := by
  unfold lineStart
  split
  · dsimp only
    split
    · trivial
    · split
      · split
        · exact .inr rfl
        · trivial
      · split
        · exact .inr rfl
        · exact rfl
  · exact .inl rfl

namespace Margin

variable {lines : List Text} {m next : Margin} {found : List Token} {row column : Nat}
  {line : Text} {below : List Text} {layout : Layout}

theorem On.rowText_eq (hon : On lines ⟨row, line :: below, layout⟩) : rowText lines row = line :=
  (Cursor.On.ofDrop hon.ahead).rest

theorem shown_marks {marks : List TokenKind} (hon : On lines ⟨row, line :: below, layout⟩)
    (h : marks = [] ∨ column = leadingBlanks line) :
    ∀ t ∈ marks.map (markToken row column), Shown lines t.start := by
  intro t ht
  obtain ⟨kind, hkind, rfl⟩ := List.mem_map.mp ht
  obtain rfl | rfl := h
  · exact absurd hkind List.not_mem_nil
  · exact .lineStart hon.rowText_eq hon.row

theorem shown_failureTokens {cause : LexError} (h : Shown lines ⟨row, column⟩) :
    ∀ t ∈ failureTokens cause row column, Shown lines t.start := by
  intro t ht
  simp only [failureTokens, List.mem_cons, List.not_mem_nil, or_false] at ht
  obtain rfl | rfl := ht <;> exact h

theorem Line.shown (hl : ∀ line ∈ lines, '\n' ∉ line) (hon : m.On lines) (h : Line m found next) :
    ∀ t ∈ found, Shown lines t.start := by
  cases h with
  | ignored => simp
  | @scanned row column last width depth line below rest layout marks indents lone joined found
      hstart hscan =>
      have hcursor := hon.cursor (LineStart.fits_of_eq hstart).1
      obtain ⟨hfound, hend⟩ := scanLine_shown hl hcursor hscan
      have hmarks := lineStart_afterBlanks line layout
      rw [hstart] at hmarks
      refine List.forall_mem_append.mpr ⟨shown_marks hon hmarks, ?_⟩
      refine List.forall_mem_append.mpr ⟨hfound, fun t ht => ?_⟩
      unfold lineBreak at ht
      split at ht
      · obtain rfl := List.mem_singleton.mp ht
        exact hend
      · exact absurd ht List.not_mem_nil

theorem Stops.shown (hl : ∀ line ∈ lines, '\n' ∉ line) (hon : m.On lines) (h : Stops m found) :
    ∀ t ∈ found, Shown lines t.start := by
  cases h with
  | @done row layout =>
      have hrow : rowText lines row = [] := by
        have hlength := List.drop_eq_nil_iff.mp hon.ahead
        simp [rowText, List.getD_eq_getElem?_getD, List.getElem?_eq_none hlength]
      refine List.forall_mem_append.mpr ⟨fun t ht => ?_, fun t ht => ?_⟩
      · obtain ⟨-, -, rfl⟩ := List.mem_map.mp ht
        exact .lineStart hrow hon.row
      · obtain rfl := List.mem_singleton.mp ht
        exact .lineStart hrow hon.row
  | @misaligned row column line below layout marks hstart =>
      have hcolumn := lineStart_afterBlanks line layout
      rw [hstart] at hcolumn
      refine List.forall_mem_append.mpr ⟨shown_marks hon (.inr hcolumn), ?_⟩
      obtain rfl : column = leadingBlanks line := hcolumn
      exact shown_failureTokens (.lineStart hon.rowText_eq hon.row)
  | @failed row column last width line below layout marks indents lone found cause hstart hscan =>
      have hcursor := hon.cursor (LineStart.fits_of_eq hstart).1
      obtain ⟨hfound, hend⟩ := scanLine_shown hl hcursor hscan
      have hmarks := lineStart_afterBlanks line layout
      rw [hstart] at hmarks
      refine List.forall_mem_append.mpr ⟨shown_marks hon hmarks, ?_⟩
      exact List.forall_mem_append.mpr ⟨hfound, shown_failureTokens hend⟩

theorem tokens_shown (hl : ∀ line ∈ lines, '\n' ∉ line) (m : Margin) (hon : m.On lines) :
    ∀ t ∈ m.tokens, Shown lines t.start := by
  revert hon
  refine tokens_induction (motive := fun m tokens => m.On lines →
    ∀ t ∈ tokens, Shown lines t.start) ?_ ?_ m
  · intro m found hstops hon
    exact hstops.shown hl hon
  · intro m next found hline ih hon
    exact List.forall_mem_append.mpr ⟨hline.shown hl hon, ih (hline.tiles hl hon).2⟩

end Margin

-- An excerpt shows the place of every token of a source, those of the layout included.
theorem tokenize_shown (source : Text) :
    ∀ t ∈ tokenize (sourceLines source), Shown (sourceLines source) t.start :=
  Margin.tokens_shown (sourceLines_newline source) (.initial _) (.initial _)

theorem tokenize_counted (source : Text) :
    ∀ t ∈ tokenize (sourceLines source), 1 ≤ t.line ∧ 1 ≤ t.column := by
  obtain ⟨last, htiles, -⟩ := tokenize_tiles source
  intro t ht
  obtain hstands | hmarks := htiles.stands ht
  · exact ⟨hstands.line ▸ Nat.le_add_left .., hstands.column ▸ Nat.le_add_left ..⟩
  · exact ⟨hmarks.line ▸ Nat.le_add_left .., hmarks.column ▸ Nat.le_add_left ..⟩

end TypeStub
