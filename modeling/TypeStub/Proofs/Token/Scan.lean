import TypeStub.Proofs.Token.Tiles

namespace TypeStub

namespace Cursor

variable {lines : List Text} {c next : Cursor}

theorem take_prefix_ahead (n : Nat) : c.rest.take n <+: c.ahead := ⟨_, ahead_skip c n⟩

-- What is taken for a triple-quoted string is one.
theorem tripleString_whole {n : Nat} {quote : Char}
    (hfits : (Lexeme.tripleQuoted n quote).Fits c.rest) {kind : TokenKind} {text : Text}
    (h : c.tripleString (n + 3) quote = .token kind text next) :
    kind = .string ∧ Lexeme.IsTripleQuoted text := by
  obtain ⟨htwo, hletters, hquote, hopening⟩ := hfits
  have hbreak : quote ≠ '\n' := by
    rintro rfl
    exact absurd hquote (by decide)
  have htake : c.rest.take (n + 3) = c.rest.take n ++ [quote, quote, quote] := by
    rw [List.take_add, List.prefix_iff_eq_take.mp hopening]
    rfl
  obtain ⟨rfl, body, rfl, hclose⟩ := tripleString_inv h
  have hcloses := closeTriple_closes hbreak hclose
  obtain ⟨inner, rfl⟩ := Lexeme.closingTriple_end hcloses
  refine ⟨rfl, c.rest.take n, quote, inner, ?_, hletters, hquote, ?_, ?_⟩
  · rw [List.length_take]
    omega
  · rw [htake, List.append_assoc _ inner]
  · rw [hcloses, List.length_append]
    rfl

-- A triple-quoted string, which may end further down.
theorem On.tripleString (hl : ∀ line ∈ lines, '\n' ∉ line) (hon : c.On lines) {n : Nat}
    {quote : Char} (hfits : (Lexeme.tripleQuoted n quote).Fits c.rest) {kind : TokenKind}
    {text : Text} (h : c.tripleString (n + 3) quote = .token kind text next) :
    (Token.mk kind text (c.row + 1) (c.column + 1)).StandsAt lines c.spot ∧
      next.spot = c.spot.past text ∧ next.On lines := by
  obtain ⟨rfl, hwhole⟩ := tripleString_whole hfits h
  have hlength := hfits.opening_le
  obtain ⟨-, body, rfl, hclose⟩ := tripleString_inv h
  have hinline : '\n' ∉ c.rest.take (n + 3) :=
    fun hm => hon.inline hl (List.mem_of_mem_take hm)
  obtain ⟨hspot, hnext⟩ := closeTriple_on hl (hon.skip hlength) hclose
  refine ⟨⟨rfl, rfl, rfl, ?_, ?_, fun _ => ⟨rfl, hwhole⟩, fun hno => absurd hwhole.opens hno,
    fun hk => absurd hk (by simp)⟩, ?_, hnext⟩
  · have hlong : 0 < (c.rest.take (n + 3)).length := by
      rw [List.length_take]
      omega
    exact List.append_ne_nil_of_left_ne_nil (List.length_pos_iff.mp hlong) _
  · refine ⟨next.ahead, ?_⟩
    have hahead : (c.skip (n + 3)).ahead = _ := (closeTriple_ahead hclose).symm
    rw [hon.textFrom, ← ahead_skip c (n + 3), hahead, List.append_assoc]
  · rw [hspot, Spot.past_append (c.rest.take (n + 3)), Spot.past_line hinline, List.length_take,
      Nat.min_eq_left hlength]
    rfl

-- One token of a line: it stands at the cursor, and the next cursor is past it.
theorem On.step_token (hl : ∀ line ∈ lines, '\n' ∉ line) (hon : c.On lines) {kind : TokenKind}
    {text : Text} (h : c.step = .token kind text next) :
    (Token.mk kind text (c.row + 1) (c.column + 1)).StandsAt lines c.spot ∧
      next.spot = c.spot.past text ∧ next.On lines := by
  obtain ⟨first, rest, hr, ⟨n, hlex, rfl, rfl⟩ | ⟨n, quote, hlex, htriple⟩⟩ := step_token_inv h
  · obtain ⟨hsourced, hlength⟩ := hr ▸ Lexeme.fits_of_ofText hlex
    have hpos := Lexeme.ofText_length_pos hlex
    have hinline : '\n' ∉ c.rest.take n := fun hm => hon.inline hl (List.mem_of_mem_take hm)
    have hopens : ¬ Lexeme.OpensTriple (c.rest.take n) := by
      intro hopens
      rw [hr] at hopens
      obtain ⟨_, _, htriple⟩ :=
        Lexeme.ofText_of_opensTriple (hopens.of_prefix (List.take_prefix n _))
      rw [hlex] at htriple
      exact absurd htriple (by simp)
    have hlexed : kind = .ident → Identifier (c.rest.take n) := by
      rintro rfl
      have hrest : '\n' ∉ rest := fun hm => hon.inline hl (hr ▸ List.mem_cons_of_mem _ hm)
      exact hr ▸ Lexeme.ofText_ident hrest hlex
    refine ⟨⟨hsourced, rfl, rfl, ?_, hon.textFrom ▸ take_prefix_ahead n, fun h => absurd h hopens,
      fun _ => hinline, hlexed⟩, ?_, hon.skip hlength⟩
    · rw [hr]
      simp only [ne_eq, List.take_eq_nil_iff, reduceCtorEq, or_false]
      omega
    · rw [Spot.past_line hinline, List.length_take, Nat.min_eq_left hlength]
      rfl
  · exact hon.tripleString hl (hr ▸ Lexeme.fits_of_ofText hlex) htriple

-- A token of a line is not one of the layout.
theorem step_sourced {kind : TokenKind} {text : Text} (h : c.step = .token kind text next) :
    kind.isSourced = true := by
  obtain ⟨first, rest, -, ⟨n, hlex, -, -⟩ | ⟨n, quote, -, htriple⟩⟩ := step_token_inv h
  · exact (Lexeme.fits_of_ofText hlex).1
  · obtain ⟨rfl, -⟩ := tripleString_inv htriple
    rfl

theorem On.step_blank (hon : c.On lines) (h : c.step = .blank next) :
    Gap lines c.spot next.spot ∧ next.On lines := by
  obtain ⟨first, rest, hr, hlex, rfl⟩ := step_blank_inv h
  have hbyte : byteAt? lines ⟨c.row, c.column⟩ = some first := by
    have hat := hon.byteAt 0
    rwa [hr] at hat
  exact ⟨.blank hbyte (Lexeme.isBlank_of_ofText hlex),
    hon.skip (by rw [hr, List.length_cons]; omega)⟩

-- The end of a line comes with the line, with a comment or with a backslash.
theorem On.step_lineEnd (hon : c.On lines) {joined : Bool} (h : c.step = .lineEnd joined) :
    Tiles lines c.spot ⟨c.row, (rowText lines c.row).length⟩ [] := by
  obtain ⟨hr, -⟩ | ⟨⟨more, hr, hplain⟩, -⟩ | ⟨⟨more, hr, hblanks⟩, -⟩ := step_lineEnd_inv h
  · have hend := hon.lineEnd_eq
    rw [lineEnd, hr, List.length_nil, Nat.add_zero] at hend
    rw [← hend]
    exact .nil _
  · rw [← hon.rest] at hr
    exact .gap (.comment hr hplain) (.nil _)
  · rw [← hon.rest] at hr
    exact .gap (.continuation hr hblanks) (.nil _)

end Cursor

-- Where a scan ended.
def LineEnd.spot : LineEnd → Spot
  | .done row width _ _ _ => ⟨row, width⟩
  | .failed _ row column => ⟨row, column⟩

-- A scan that came to the end of a line of the source, with the lines below it.
def LineEnd.On (lines : List Text) : LineEnd → Prop
  | .done row width below _ _ => width = (rowText lines row).length ∧ row < lines.length ∧
      lines.drop (row + 1) = below
  | .failed .. => True

-- A scan along a line accounts for the source from where it starts to where it ends.
theorem scanLine_tiles {lines : List Text} (hl : ∀ line ∈ lines, '\n' ∉ line) {c : Cursor}
    {depth : Nat} {tokens : List Token} {ending : LineEnd} (hon : c.On lines)
    (h : scanLine c depth = (tokens, ending)) :
    Tiles lines c.spot ending.spot tokens ∧ ending.On lines := by
  fun_induction scanLine c depth generalizing tokens with
  | case1 c depth kind text next hs _ more last hscan ih =>
      obtain ⟨rfl, rfl⟩ := Prod.mk.inj h
      obtain ⟨hstands, hspot, hnext⟩ := hon.step_token hl hs
      obtain ⟨htiles, hlast⟩ := ih hnext hscan
      exact ⟨.token hstands (hspot ▸ htiles), hlast⟩
  | case2 c depth next hs _ ih =>
      obtain ⟨hgap, hnext⟩ := hon.step_blank hs
      obtain ⟨htiles, hlast⟩ := ih hnext h
      exact ⟨.gap hgap htiles, hlast⟩
  | case3 c depth joined hs =>
      obtain ⟨rfl, rfl⟩ := Prod.mk.inj h
      rw [LineEnd.spot, hon.lineEnd_eq]
      exact ⟨hon.step_lineEnd hs, rfl, hon.row, hon.below⟩
  | case4 c depth cause hs =>
      obtain ⟨rfl, rfl⟩ := Prod.mk.inj h
      exact ⟨.nil _, trivial⟩

-- A scan along a line gives no token of the layout.
theorem scanLine_sourced (c : Cursor) (depth : Nat) :
    ∀ t ∈ (scanLine c depth).1, t.kind.isSourced = true := by
  fun_induction scanLine c depth with
  | case1 c depth kind text next hs _ more last hscan ih =>
      intro t ht
      obtain rfl | ht := List.mem_cons.mp ht
      · exact Cursor.step_sourced hs
      · rw [hscan] at ih
        exact ih t ht
  | case2 c depth next hs _ ih => exact ih
  | case3 => exact fun t ht => absurd ht List.not_mem_nil
  | case4 => exact fun t ht => absurd ht List.not_mem_nil

end TypeStub
