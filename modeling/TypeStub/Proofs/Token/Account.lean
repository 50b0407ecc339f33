import TypeStub.Proofs.Token.Indent

namespace TypeStub

section

variable {lines : List Text} {spot : Spot} {tokens : List Token}

theorem Tiles.marks (h : ∀ t ∈ tokens, t.MarksAt spot) : Tiles lines spot spot tokens := by
  induction tokens with
  | nil => exact .nil _
  | cons t rest ih =>
      exact .mark (h t List.mem_cons_self) (ih fun u hu => h u (List.mem_cons_of_mem _ hu))

theorem Shift.marksAt {before after : List Nat} {marks : List TokenKind}
    (h : Shift before marks after) (row column : Nat) :
    ∀ t ∈ marks.map (markToken row column), t.MarksAt ⟨row, column⟩ := by
  intro t ht
  obtain ⟨kind, hkind, rfl⟩ := List.mem_map.mp ht
  obtain rfl | rfl := h.kinds hkind
  · exact ⟨rfl, rfl, rfl⟩
  · exact ⟨rfl, rfl, rfl⟩

theorem marksAt_failureTokens (cause : LexError) (row column : Nat) :
    ∀ t ∈ failureTokens cause row column, t.MarksAt ⟨row, column⟩ := by
  intro t ht
  simp only [failureTokens, List.mem_cons, List.not_mem_nil, or_false] at ht
  obtain rfl | rfl := ht
  · exact ⟨rfl, rfl, rfl⟩
  · exact ⟨rfl, rfl, rfl⟩

end

namespace Margin

-- A margin of a source.
structure On (lines : List Text) (m : Margin) : Prop where
  row : m.row ≤ lines.length
  ahead : lines.drop m.row = m.ahead

variable {lines : List Text} {m next : Margin} {found : List Token}

theorem On.initial (lines : List Text) : (initial lines).On lines := ⟨Nat.zero_le _, rfl⟩

section

variable {row column : Nat} {text : Text} {below : List Text} {layout : Layout}

-- The beginning of a line is blanks.
theorem On.blanks (hon : On lines ⟨row, text :: below, layout⟩)
    (hb : LineStart.Blank text column) : Tiles lines ⟨row, 0⟩ ⟨row, column⟩ [] := by
  have hcursor := Cursor.On.ofDrop hon.ahead
  have hblanks : Tiles lines ⟨row, 0⟩ ⟨row, 0 + column⟩ [] := by
    refine .blanks fun i hi => ?_
    have hlength : i < text.length := Nat.lt_of_lt_of_le hi hb.1
    refine ⟨text[i], ?_, hb.2 _ (List.mem_take_iff_getElem.mpr ⟨i, by omega, rfl⟩)⟩
    exact (hcursor.byteAt i).trans (List.getElem?_eq_getElem hlength)
  rwa [Nat.zero_add] at hblanks

theorem On.cursor (hon : On lines ⟨row, text :: below, layout⟩)
    (hb : LineStart.Blank text column) :
    Cursor.On lines ⟨row, column, text.drop column, below⟩ := by
  have hskip := (Cursor.On.ofDrop hon.ahead).skip hb.1
  have hcursor : Cursor.skip ⟨row, 0, text, below⟩ column =
      ⟨row, column, text.drop column, below⟩ := by
    rw [Cursor.skip, Nat.zero_add]
  rwa [hcursor] at hskip

theorem On.rowBelow (hon : On lines ⟨row, text :: below, layout⟩) (layout' : Layout) :
    On lines ⟨row + 1, below, layout'⟩ := by
  have hcursor := Cursor.On.ofDrop hon.ahead
  exact ⟨hcursor.row, hcursor.below⟩

end

-- The tokens of a line account for it, from its beginning to that of the next.
theorem Line.tiles (hl : ∀ line ∈ lines, '\n' ∉ line) (hon : m.On lines) (h : Line m found next) :
    Tiles lines ⟨m.row, 0⟩ ⟨next.row, 0⟩ found ∧ next.On lines := by
  cases h with
  | @ignored row line below layout hstart =>
      obtain ⟨column, hb, hrest⟩ := LineStart.fits_of_eq hstart
      have hcursor := hon.cursor hb
      refine ⟨(hon.blanks hb).append ?_, hon.rowBelow layout⟩
      have hend : Tiles lines ⟨row, (rowText lines row).length⟩ ⟨row + 1, 0⟩ [] :=
        .gap .lineEnd (.nil _)
      obtain hnil | ⟨rest, hrest, hplain⟩ := hrest
      · have hcolumn := hcursor.lineEnd_eq
        rw [Cursor.lineEnd] at hcolumn
        dsimp only at hcolumn
        rw [hnil, List.length_nil, Nat.add_zero] at hcolumn
        rwa [hcolumn]
      · exact .gap (.comment (hcursor.rest.trans hrest) hplain) hend
  | @scanned row column last width depth line below rest layout marks indents lone joined found
      hstart hscan =>
      obtain ⟨hb, hshift⟩ := LineStart.fits_of_eq hstart
      obtain ⟨htiles, hwidth, hlast, hbelow⟩ := scanLine_tiles hl (hon.cursor hb) hscan
      refine ⟨?_, hlast, hbelow⟩
      have hmarks : Tiles lines ⟨row, column⟩ ⟨row, column⟩ _ :=
        .marks (hshift.marksAt row column)
      have hbreak : Tiles lines ⟨last, width⟩ ⟨last + 1, 0⟩
          (lineBreak lone last width depth joined) := by
        rw [hwidth]
        unfold lineBreak
        split
        · exact .mark ⟨rfl, rfl, rfl⟩ (.gap .lineEnd (.nil _))
        · exact .gap .lineEnd (.nil _)
      exact (hon.blanks hb).append (hmarks.append (htiles.append hbreak))

-- At the end of a source, or at an error in it, there is nothing more.
theorem Stops.tiles (hl : ∀ line ∈ lines, '\n' ∉ line) (hon : m.On lines) (h : Stops m found) :
    ∃ last, Tiles lines ⟨m.row, 0⟩ last found ∧
      ((∀ t ∈ found, t.kind ≠ .error) → last = ⟨lines.length, 0⟩) := by
  have hfailure : ∀ {cause : LexError} {row column : Nat} {front : List Token} {last : Spot},
      (∀ t ∈ front ++ failureTokens cause row column, t.kind ≠ .error) →
        last = ⟨lines.length, 0⟩ :=
    fun hno => absurd rfl (hno _ (List.mem_append_right _ List.mem_cons_self))
  cases h with
  | @done row layout =>
      have hrow : row = lines.length :=
        Nat.le_antisymm hon.row (List.drop_eq_nil_iff.mp hon.ahead)
      refine ⟨⟨row, 0⟩, .marks fun t ht => ?_, fun _ => by rw [hrow]⟩
      obtain ht | ht := List.mem_append.mp ht
      · obtain ⟨-, -, rfl⟩ := List.mem_map.mp ht
        exact ⟨rfl, rfl, rfl⟩
      · obtain rfl := List.mem_singleton.mp ht
        exact ⟨rfl, rfl, rfl⟩
  | @misaligned row column line below layout marks hstart =>
      obtain ⟨hb, kept, hshift⟩ := LineStart.fits_of_eq hstart
      have hmarks : Tiles lines ⟨row, column⟩ ⟨row, column⟩ _ :=
        .marks (hshift.marksAt row column)
      have hend : Tiles lines ⟨row, column⟩ ⟨row, column⟩ _ :=
        .marks (marksAt_failureTokens .invalidIndentation row column)
      exact ⟨_, (hon.blanks hb).append (hmarks.append hend), hfailure⟩
  | @failed row column last width line below layout marks indents lone found cause hstart hscan =>
      obtain ⟨hb, hshift⟩ := LineStart.fits_of_eq hstart
      have htiles := (scanLine_tiles hl (hon.cursor hb) hscan).1
      have hmarks : Tiles lines ⟨row, column⟩ ⟨row, column⟩ _ :=
        .marks (hshift.marksAt row column)
      have hend : Tiles lines ⟨last, width⟩ ⟨last, width⟩ _ :=
        .marks (marksAt_failureTokens cause last width)
      refine ⟨_, (hon.blanks hb).append (hmarks.append (htiles.append hend)), fun hno => ?_⟩
      rw [← List.append_assoc] at hno
      exact hfailure hno

theorem tokens_tiles (hl : ∀ line ∈ lines, '\n' ∉ line) (m : Margin) (hon : m.On lines) :
    ∃ last, Tiles lines ⟨m.row, 0⟩ last m.tokens ∧
      ((∀ t ∈ m.tokens, t.kind ≠ .error) → last = ⟨lines.length, 0⟩) := by
  revert hon
  refine tokens_induction (motive := fun m tokens => m.On lines →
    ∃ last, Tiles lines ⟨m.row, 0⟩ last tokens ∧
      ((∀ t ∈ tokens, t.kind ≠ .error) → last = ⟨lines.length, 0⟩)) ?_ ?_ m
  · intro m found hstops hon
    exact hstops.tiles hl hon
  · intro m next found hline ih hon
    obtain ⟨htiles, hnext⟩ := hline.tiles hl hon
    obtain ⟨last, hrest, hlast⟩ := ih hnext
    exact ⟨last, htiles.append hrest,
      fun hno => hlast fun t ht => hno t (List.mem_append_right _ ht)⟩

end Margin

-- The tokens of a source account for it, to its end unless there is an error.
theorem tokenize_tiles (source : Text) :
    ∃ last, Tiles (sourceLines source) ⟨0, 0⟩ last (tokenize (sourceLines source)) ∧
      ((∀ t ∈ tokenize (sourceLines source), t.kind ≠ .error) →
        last = ⟨(sourceLines source).length, 0⟩) :=
  Margin.tokens_tiles (sourceLines_newline source) (.initial _) (.initial _)

-- Whatever its source, an identifier token is an identifier.
theorem tokenize_lexed (source : Text) : ∀ t ∈ tokenize (sourceLines source), t.Lexed := by
  obtain ⟨last, htiles, -⟩ := tokenize_tiles source
  intro t ht
  obtain hstands | hmarks := htiles.stands ht
  · exact hstands.lexed
  · intro hident
    have hunsourced := hmarks.unsourced
    rw [hident] at hunsourced
    exact absurd hunsourced (by decide)

end TypeStub
