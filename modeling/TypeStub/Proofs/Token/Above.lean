import TypeStub.Proofs.Token.Breaks
import TypeStub.Proofs.Token.Onto

-- What the lines above a row tell of the tokens.
namespace TypeStub

-- A row stands in a triple-quoted string that opens above it: the string goes on to that row, or
-- it is never closed.
def InString (lines : List Text) (tokens : List Token) (row : Nat) : Prop :=
  ∃ t ∈ tokens, t.start.row < row ∧ (t.kind = .string ∧ row ≤ t.finish.row ∨
    t.kind = .error ∧ Lexeme.OpensTriple (textFrom lines t.start))

namespace Margin

def onto (more : List Text) (m : Margin) : Margin := { m with ahead := m.ahead ++ more }

section

variable {above more : List Text} {c last : Cursor} {depth inner : Nat} {tokens : List Token}
  {ending : LineEnd}

theorem onto_on (hon : Cursor.On above c) (more : List Text) :
    (c.onto more).On (above ++ more) := by
  have hrow := hon.row
  have htext : rowText (above ++ more) c.row = rowText above c.row := by
    rw [rowText_eq hrow, rowText_eq (by rw [List.length_append]; omega),
      List.getElem_append_left hrow]
  refine ⟨?_, ?_, ?_, ?_⟩
  · show (above ++ more).drop (c.row + 1) = c.below ++ more
    rw [List.drop_append_of_le_length hrow, hon.below]
  · show c.row < (above ++ more).length
    rw [List.length_append]
    omega
  · exact htext ▸ hon.column
  · exact htext ▸ hon.rest

-- A scan stays in the rows of its lines.
theorem scanLine_within (hl : ∀ line ∈ above, '\n' ∉ line) (hon : c.On above)
    (h : scanLine c depth = (tokens, ending)) :
    (∀ t ∈ tokens, t.line ≤ above.length) ∧ ending.spot.row < above.length := by
  fun_induction scanLine c depth generalizing tokens with
  | case1 c depth kind text next hs _ found last hscan ih =>
      obtain ⟨rfl, rfl⟩ := Prod.mk.inj h
      obtain ⟨hfound, hlast⟩ := ih (hon.step_token hl hs).2.2 hscan
      exact ⟨List.forall_mem_cons.mpr ⟨hon.row, hfound⟩, hlast⟩
  | case2 c depth next hs _ ih => exact ih (hon.step_blank hs).2 h
  | case3 c depth joined hs =>
      obtain ⟨rfl, rfl⟩ := Prod.mk.inj h
      exact ⟨by simp, hon.row⟩
  | case4 c depth cause hs =>
      obtain ⟨rfl, rfl⟩ := Prod.mk.inj h
      exact ⟨by simp, hon.row⟩

theorem mem_tokens_of_scan {row column : Nat} {line : Text} {below : List Text} {layout : Layout}
    {marks : List TokenKind} {indents : List Nat} {loneComment : Bool} {t : Token}
    (hstart : lineStart line layout = .scan column marks indents loneComment)
    (h : t ∈ (scanLine ⟨row, column, line.drop column, below⟩ layout.depth).1 ∨
      ∃ cause row' column',
        (scanLine ⟨row, column, line.drop column, below⟩ layout.depth).2 =
          .failed cause row' column' ∧ t ∈ failureTokens cause row' column') :
    t ∈ (Margin.mk row (line :: below) layout).tokens := by
  cases hscan : scanLine ⟨row, column, line.drop column, below⟩ layout.depth with
  | mk found ending =>
      rw [hscan] at h
      cases ending with
      | done =>
          rw [(Line.scanned hstart hscan).tokens_eq]
          rcases h with h | ⟨_, _, _, heq, -⟩
          · simp [h]
          · cases heq
      | failed cause row' column' =>
          rw [(Stops.failed hstart hscan).tokens_eq]
          rcases h with h | ⟨_, _, _, heq, h⟩
          · simp [h]
          · obtain ⟨rfl, rfl, rfl⟩ := (LineEnd.failed.injEq ..).mp heq
            simp [h]

-- A string that does not close in the lines above goes on below them.
theorem inString_of_unclosed {row column : Nat} {line : Text} {below : List Text} {layout : Layout}
    {marks : List TokenKind} {indents : List Nat} {loneComment : Bool} {front : List Token}
    (habove : ∀ line ∈ above, '\n' ∉ line) (hmore : ∀ line ∈ more, '\n' ∉ line)
    (hon : On above ⟨row, line :: below, layout⟩)
    (hstart : lineStart line layout = .scan column marks indents loneComment)
    (hopen : last.Unclosed)
    (hreads : ∀ more, Cursor.Reads (Cursor.onto more ⟨row, column, line.drop column, below⟩)
      layout.depth front (last.onto more) inner) :
    InString (above ++ more) (Margin.mk row (line :: (below ++ more)) layout).tokens
      above.length := by
  have hl : ∀ line ∈ above ++ more, '\n' ∉ line := List.forall_mem_append.mpr ⟨habove, hmore⟩
  have hcursor := hon.cursor (LineStart.fits_of_eq hstart).1
  have hlast : last.On above := by
    have hself := (hreads []).on habove (by simpa [Cursor.onto] using hcursor)
    simpa [Cursor.onto] using hself
  have hlonger := onto_on hlast more
  have hscan := (hreads more).scanLine_eq
  have hlength : last.row + last.below.length + 1 = above.length := by
    have hrow := hlast.row
    rw [← hlast.below, List.length_drop]
    omega
  have hopens : Lexeme.OpensTriple (textFrom (above ++ more) last.spot) := by
    have htext : textFrom (above ++ more) last.spot = (last.onto more).ahead := hlonger.textFrom
    rw [htext]
    refine hopen.opens.of_prefix ?_
    have hprefix := (last.onto more).take_prefix_ahead last.rest.length
    rwa [show (last.onto more).rest = last.rest from rfl, List.take_length] at hprefix
  obtain ⟨first, rest, n, quote, hrest, hlex, hclose⟩ := hopen
  have hstep : (last.onto more).step = (last.onto more).tripleString (n + 3) quote :=
    Cursor.step_of_tripleQuoted hrest hlex
  cases hfound : Cursor.closeTriple quote last.row (last.column + (n + 3))
      (last.rest.drop (n + 3)) (last.below ++ more) with
  | none =>
      have hbad : (last.onto more).step = .bad .unterminatedString := by
        rw [hstep]
        simp only [Cursor.tripleString, Cursor.onto, hfound]
      rw [scanLine_bad hbad] at hscan
      refine ⟨⟨.error, LexError.message .unterminatedString, last.row + 1, last.column + 1⟩,
        mem_tokens_of_scan hstart (.inr ⟨_, _, _, congrArg Prod.snd hscan, ?_⟩), ?_,
        .inr ⟨rfl, hopens⟩⟩
      · exact List.mem_cons_self
      · show last.row < above.length
        omega
  | some pair =>
      obtain ⟨text, next⟩ := pair
      have htoken : (last.onto more).step =
          .token .string (last.rest.take (n + 3) ++ text) next := by
        rw [hstep]
        simp only [Cursor.tripleString, Cursor.onto, hfound]
      rw [scanLine_token htoken] at hscan
      obtain ⟨hstands, hspot, -⟩ := hlonger.step_token hl htoken
      refine ⟨⟨.string, last.rest.take (n + 3) ++ text, last.row + 1, last.column + 1⟩,
        mem_tokens_of_scan hstart (.inl ?_), ?_, .inl ⟨rfl, ?_⟩⟩
      · show _ ∈ (scanLine (Cursor.onto more ⟨row, column, line.drop column, below⟩) layout.depth).1
        rw [hscan]
        simp [Cursor.onto]
      · show last.row < above.length
        omega
      · have hfinish := hstands.finish_eq.trans hspot.symm
        have hbeyond := Cursor.closeTriple_beyond hclose hfound
        have hrow : (Token.finish ⟨.string, last.rest.take (n + 3) ++ text,
            last.row + 1, last.column + 1⟩).row = next.row := congrArg Spot.row hfinish
        omega

end

-- What the lines above a row tell of the tokens: they come to the row at a layout that does not
-- depend on what follows, or to a string that is open there, or to an error.
inductive Tells (above : List Text) (m : Margin) : Prop
  | reaches {earlier : List Token} {layout : Layout} (h : ∀ t ∈ earlier, t.line ≤ above.length)
      (hrun : ∀ more, Run (m.onto more) earlier ⟨above.length, more, layout⟩)
  | inString (h : ∀ more, (∀ line ∈ more, '\n' ∉ line) →
      InString (above ++ more) (m.onto more).tokens above.length)
  | stops {found : List Token} (h : ∀ t ∈ found, t.line ≤ above.length)
      (htokens : ∀ more, (m.onto more).tokens = found)

section

variable {above : List Text} {m next : Margin} {found : List Token}

theorem Tells.line (hfound : ∀ t ∈ found, t.line ≤ above.length)
    (hline : ∀ more, Line (m.onto more) found (next.onto more)) (h : Tells above next) :
    Tells above m := by
  cases h with
  | reaches hearlier hrun =>
      exact .reaches (List.forall_mem_append.mpr ⟨hfound, hearlier⟩)
        fun more => .line (hline more) (hrun more)
  | inString h =>
      refine .inString fun more hmore => ?_
      obtain ⟨t, ht, hin⟩ := h more hmore
      exact ⟨t, (hline more).tokens_eq ▸ List.mem_append_right _ ht, hin⟩
  | stops hlater htokens =>
      exact .stops (List.forall_mem_append.mpr ⟨hfound, hlater⟩) fun more => by
        rw [(hline more).tokens_eq, htokens more]

theorem tells_of_on (habove : ∀ line ∈ above, '\n' ∉ line) (m : Margin) (hon : m.On above) :
    Tells above m := by
  induction hn : m.ahead.length using Nat.strong_induction_on generalizing m with
  | h n ih =>
      obtain ⟨row, ahead, layout⟩ := m
      cases ahead with
      | nil =>
          have hrow : row = above.length :=
            Nat.le_antisymm hon.row (List.drop_eq_nil_iff.mp hon.ahead)
          subst hrow
          exact .reaches (fun t ht => absurd ht List.not_mem_nil) fun more => .refl _
      | cons line below =>
          have hrow : row < above.length := (Cursor.On.ofDrop hon.ahead).row
          have hmarks : ∀ (marks : List TokenKind) (column : Nat),
              ∀ t ∈ marks.map (markToken row column), t.line ≤ above.length := by
            intro marks column t ht
            obtain ⟨kind, -, rfl⟩ := List.mem_map.mp ht
            exact hrow
          have hfailure : ∀ {cause : LexError} {row column : Nat}, row < above.length →
              ∀ t ∈ failureTokens cause row column, t.line ≤ above.length := by
            intro cause row column hlt t ht
            simp only [failureTokens, List.mem_cons, List.not_mem_nil, or_false] at ht
            obtain rfl | rfl := ht <;> exact hlt
          cases hstart : lineStart line layout with
          | ignored =>
              have hnext := ih below.length (by rw [← hn]; exact Nat.lt_succ_self _)
                ⟨row + 1, below, layout⟩ (hon.rowBelow layout) rfl
              exact .line (fun t ht => absurd ht List.not_mem_nil) (fun more => .ignored hstart)
                hnext
          | misaligned column marks =>
              exact .stops (List.forall_mem_append.mpr ⟨hmarks marks column, hfailure hrow⟩)
                fun more => (Stops.misaligned hstart).tokens_eq
          | scan column marks indents loneComment =>
              have hcursor := hon.cursor (LineStart.fits_of_eq hstart).1
              rcases scanLine_onto ⟨row, column, line.drop column, below⟩ layout.depth with
                hlocal | ⟨front, last, inner, hopen, hreads⟩
              · cases hscan : scanLine ⟨row, column, line.drop column, below⟩ layout.depth with
                | mk scanned ending =>
                    obtain ⟨hscanned, hending⟩ := scanLine_within habove hcursor hscan
                    rw [hscan] at hlocal
                    cases ending with
                    | done last width rest depth joined =>
                        have hline := Line.scanned hstart hscan
                        have hrest := (hline.tiles habove hon).2
                        have hnext := ih rest.length (by
                          rw [← hn]
                          exact hline.ahead_lt) ⟨last + 1, rest, ⟨depth, joined, indents⟩⟩ hrest rfl
                        have hlonger : ∀ more, Line (onto more ⟨row, line :: below, layout⟩)
                            (marks.map (markToken row column) ++
                              (scanned ++ lineBreak loneComment last width depth joined))
                            (onto more ⟨last + 1, rest, ⟨depth, joined, indents⟩⟩) :=
                          fun more => .scanned hstart (hlocal more)
                        refine .line ?_ hlonger hnext
                        refine List.forall_mem_append.mpr ⟨hmarks marks column,
                          List.forall_mem_append.mpr ⟨hscanned, fun t ht => ?_⟩⟩
                        unfold lineBreak at ht
                        split at ht
                        · obtain rfl := List.mem_singleton.mp ht
                          exact hending
                        · cases ht
                    | failed cause last width =>
                        exact .stops (List.forall_mem_append.mpr ⟨hmarks marks column,
                          List.forall_mem_append.mpr ⟨hscanned, hfailure hending⟩⟩)
                          fun more => (Stops.failed hstart (hlocal more)).tokens_eq
              · exact .inString fun more hmore =>
                  inString_of_unclosed habove hmore hon hstart hopen hreads

end

end Margin

end TypeStub
