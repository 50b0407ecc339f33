import Mathlib.Data.List.Forall2
import TypeStub.Proofs.Grammar.AlongsideReads
import TypeStub.Proofs.Grammar.Twin
import TypeStub.Proofs.Grammar.TypeComplete
import TypeStub.Proofs.Grammar.Walk
import TypeStub.Proofs.Syntax.Alike

-- A stub parses alike when statements in it are exchanged for others that parse alike.
namespace TypeStub

namespace Parser

-- Runs from related tokens that end alike.
def Both {α : Type} (I : List Token → List Token → Prop) (p q : Parser α) (R : α → α → Prop)
    (J : List Token → List Token → Prop) (E : SyntaxError → List Token → List Token → Prop) : Prop :=
  ∀ ⦃ts us : List Token⦄, I ts us → Matches R J E (p ts) (q us)

-- The tokens at fault stand on related lines, unless types nest too deep on two given lines.
def Blamed (ρ : Int32 → Int32 → Prop) (n m : Int32) (e : SyntaxError) (ts us : List Token) : Prop :=
  ρ (ts.headD Token.stop).place.line (us.headD Token.stop).place.line ∨
    e = .nestingTooDeep ∧ (ts.headD Token.stop).place.line = n ∧ (us.headD Token.stop).place.line = m

section

variable {α β : Type} {I M J K : List Token → List Token → Prop}
  {E : SyntaxError → List Token → List Token → Prop} {R : α → α → Prop} {Q : β → β → Prop}
  {p q : Parser α}

theorem Both.pure {a b : α} (h : R a b) : Both I (Pure.pure a) (Pure.pure b) R I E :=
  fun _ _ hi => .ok h hi

theorem Both.bind {f g : α → Parser β} (hp : Both I p q R M E)
    (hf : ∀ a b, R a b → Both M (f a) (g b) Q J E) : Both I (p >>= f) (q >>= g) Q J E := by
  intro ts us hi
  have hfirst := hp hi
  simp only [Bind.bind, EStateM.bind]
  generalize p ts = left, q us = right at hfirst ⊢
  cases hfirst with
  | ok hab hrest => exact hf _ _ hab hrest
  | error he => exact .error he

theorem Both.ite {c : Prop} [Decidable c] {p' q' : Parser α} (hp : c → Both I p q R J E)
    (hq : ¬c → Both I p' q' R J E) :
    Both I (if c then p else p') (if c then q else q') R J E := by
  split
  · exact hp ‹_›
  · exact hq ‹_›

end

section

variable {α β : Type} {ρ : Int32 → Int32 → Prop} {S T : List Token → Prop} {n m : Int32} {c : Blocks}
  {heads : List Bool} {J : List Token → List Token → Prop} {Q : β → β → Prop} {ts us : List Token}
  {kind : TokenKind}

-- Somewhere in a line, before a token of a kind.
def Before (kind : TokenKind) (I : List Token → List Token → Prop) (ts us : List Token) : Prop :=
  I ts us ∧ (ts.headD Token.stop).kind = kind

theorem Poised.head_alike (h : Poised ρ S T c ts us) :
    (ts.headD Token.stop).Alike ρ (us.headD Token.stop) := by
  obtain ⟨stop, more, others, hw, -⟩ := h
  exact hw.head_alike

theorem Start.head_alike (hS : Named S) (hT : Named T) (h : Start ρ S T heads ts us) :
    (ts.headD Token.stop).Alike ρ (us.headD Token.stop) := by
  obtain ⟨b, hb, -, htwin⟩ := h
  obtain ⟨t, u, more, others, rfl, rfl, ht, -⟩ | ⟨t, more, -, -, hpoised⟩ |
    ⟨-, s, r, more, others, hs, hr, ht, rfl, rfl, -⟩ := htwin.start hb
  · exact ht
  · exact hpoised.head_alike
  · obtain ⟨t, rest, rfl, -⟩ := hS hs
    obtain ⟨u, last, rfl, -⟩ := hT hr
    exact ht

-- What a parser does within a line.
theorem Both.past {p : Parser α} {f g : α → Parser β} (hp : Alongside ρ Anywhere p)
    (hf : ∀ a, Both (Poised ρ S T c) (f a) (g a) Q J (Blamed ρ n m)) :
    Both (Poised ρ S T c) (p >>= f) (p >>= g) Q J (Blamed ρ n m) := by
  rintro ts us ⟨stop, more, others, hw, hmore⟩
  have hrun := hp hw trivial
  simp only [Bind.bind, EStateM.bind]
  generalize p ts = left, p us = right at hrun ⊢
  cases hrun with
  | ok hab hrest => exact hab ▸ hf _ ⟨stop, more, others, hrest, hmore⟩
  | error hrest => exact .error (.inl hrest.head_alike.line)

theorem both_unexpected (expected : List TokenKind)
    (h : (ts.headD Token.stop).Alike ρ (us.headD Token.stop)) :
    Matches Q J (Blamed ρ n m) (unexpected expected ts) (unexpected expected us) :=
  matches_unexpected expected h.kind h.text fun _ => .inl h.line

theorem Poised.take (h : Poised ρ S T c ts us) (hk : (ts.headD Token.stop).kind = kind)
    (hb : kind.isSourced = true) : ∃ t u ts' us', ts = t :: ts' ∧ us = u :: us' ∧ t.Alike ρ u ∧
      t.kind = kind ∧ Poised ρ S T c ts' us' := by
  obtain ⟨stop, more, others, hw, hmore⟩ := h
  obtain ⟨t, u, ts', us', rfl, rfl, ht, ⟨hbreak, -⟩ | ⟨-, hafter⟩⟩ := hw.head
  · rw [List.headD_cons] at hk
    rw [hk, hb] at hbreak
    cases hbreak
  · exact ⟨t, u, ts', us', rfl, rfl, ht, hk, stop, more, others, hafter, hmore⟩

theorem Both.taken {f g : Token → Parser β} (hk : kind.isSourced = true)
    (hf : ∀ t u, t.Alike ρ u → t.kind = kind →
      Both (Poised ρ S T c) (f t) (g u) Q J (Blamed ρ n m)) :
    Both (Before kind (Poised ρ S T c)) (next >>= f) (next >>= g) Q J (Blamed ρ n m) := by
  rintro ts us ⟨h, hkind⟩
  obtain ⟨t, u, ts', us', rfl, rfl, htu, ht, hrest⟩ := h.take hkind hk
  exact hf t u htu ht hrest

-- The second token of a line, where the first is no break.
theorem Poised.second (h : Poised ρ S T c ts us)
    (hb : (ts.headD Token.stop).kind.isSourced = true) :
    (ts.getD 1 Token.stop).Alike ρ (us.getD 1 Token.stop) := by
  obtain ⟨t, u, ts', us', rfl, rfl, -, -, hrest⟩ := h.take rfl hb
  have hnext := hrest.head_alike
  cases ts' <;> cases us' <;> exact hnext

theorem Both.expected {f g : Token → Parser β} (hk : kind.isSourced = true)
    (hf : ∀ t u, t.Alike ρ u → t.kind = kind →
      Both (Poised ρ S T c) (f t) (g u) Q J (Blamed ρ n m)) :
    Both (Poised ρ S T c) (expect kind >>= f) (expect kind >>= g) Q J (Blamed ρ n m) := by
  intro ts us h
  have hhead := h.head_alike
  by_cases hkind : (ts.headD Token.stop).kind = kind
  · obtain ⟨t, u, ts', us', rfl, rfl, htu, ht, hrest⟩ := h.take hkind hk
    rw [expect_takes ht, expect_takes (htu.kind ▸ ht)]
    exact hf t u htu ht hrest
  · rw [expect_refuses hkind, expect_refuses (hhead.kind ▸ hkind)]
    exact both_unexpected [kind] hhead

-- The end of a line.
theorem Poised.break (h : Poised ρ S T c ts us) (hk : (ts.headD Token.stop).kind = kind)
    (hb : kind.isSourced = false) (he : kind ≠ .endOfFile) : ∃ t u ts' us', ts = t :: ts' ∧
      us = u :: us' ∧ t.Alike ρ u ∧ t.kind = kind ∧ Twin ρ S T (c.step kind) ts' us' := by
  obtain ⟨stop, more, others, hw, hmore⟩ := h
  obtain ⟨t, u, ts', us', rfl, rfl, ht, ⟨-, rfl, rfl, rfl⟩ | ⟨hno, -⟩⟩ := hw.head
  · rw [List.headD_cons] at hk
    exact ⟨t, u, _, _, rfl, rfl, ht, hk, hk ▸ hmore.resolve_left (hk ▸ he)⟩
  · rw [List.headD_cons] at hk
    rw [hk, hb] at hno
    cases hno

-- After the line break the next line starts, where the same blocks are open.
theorem Both.lineEnd {p q : Parser β}
    (hp : Both (Twin ρ S T (c.step .newline)) p q Q J (Blamed ρ n m)) :
    Both (Poised ρ S T c) (expect .newline >>= fun _ => p) (expect .newline >>= fun _ => q) Q J
      (Blamed ρ n m) := by
  intro ts us h
  have hhead := h.head_alike
  by_cases hkind : (ts.headD Token.stop).kind = .newline
  · obtain ⟨t, u, ts', us', rfl, rfl, ht, hk, htwin⟩ := h.break hkind rfl (by decide)
    rw [expect_takes hk, expect_takes (ht.kind ▸ hk)]
    exact hp htwin
  · rw [expect_refuses hkind, expect_refuses (hhead.kind ▸ hkind)]
    exact both_unexpected _ hhead

theorem accept_takes {t : Token} (h : t.kind = kind) : accept kind (t :: ts) = .ok true ts :=
  if_pos h

end

section

variable {β : Type} {ρ : Int32 → Int32 → Prop} {S T : List Token → Prop} {n m : Int32} {c : Blocks}
  {heads : List Bool} {I J : List Token → List Token → Prop} {Q : β → β → Prop}
  {ts us : List Token} {kind : TokenKind}

theorem Both.ends {a b : β} (h : Q a b) :
    Both (Poised ρ S T c) (expect .newline >>= fun _ => Pure.pure a)
      (expect .newline >>= fun _ => Pure.pure b) Q (Start ρ S T c.heads) (Blamed ρ n m) :=
  .lineEnd fun _ _ htwin => .ok h ⟨c.step .newline, rfl, rfl, htwin⟩

theorem Both.peeked {E : SyntaxError → List Token → List Token → Prop} {f : Token → Parser β}
    (hhead : ∀ ts us, I ts us → (ts.headD Token.stop).Alike ρ (us.headD Token.stop))
    (hsame : Placeless f) (hf : ∀ t, Both (Before t.kind I) (f t) (f t) Q J E) :
    Both I (peek >>= f) (peek >>= f) Q J E := by
  intro ts us h
  have ht := hhead ts us h
  rw [peek_bind, peek_bind, ← hsame ht.kind ht.text]
  exact hf _ ⟨h, rfl⟩

-- A line that starts with a token of a kind, which is not one of the statements.
theorem Start.poised (hS : Named S) (h : Start ρ S T heads ts us)
    (hk : (ts.headD Token.stop).kind = kind) (hb : kind.isSourced = true) (hi : kind ≠ .ident) :
    ∃ c : Blocks, c.heads = heads ∧ c.heading = (kind == .kwDef) ∧ Poised ρ S T c ts us := by
  obtain ⟨b, hfresh, rfl, htwin⟩ := h
  obtain ⟨t, u, more, others, rfl, rfl, ht, hbreak, -⟩ | ⟨t, more, rfl, hmid, hpoised⟩ |
    ⟨-, s, r, more, others, hs, -, -, rfl, -, -⟩ := htwin.start hfresh
  · rw [List.headD_cons] at hk
    rw [hk, hb] at hbreak
    cases hbreak
  · rw [List.headD_cons] at hk
    rw [Blocks.step_first hfresh hmid, hk] at hpoised
    exact ⟨⟨b.heads, kind == .kwDef, false⟩, rfl, rfl, hpoised⟩
  · obtain ⟨t, rest, rfl, ht, -⟩ := hS hs
    exact absurd (hk.symm.trans ht) hi

-- A break at the beginning of a line is no part of one of the statements.
theorem Twin.break {b : Blocks} (hS : Named S) (hfresh : b.fresh = true) (h : Twin ρ S T b ts us)
    (hk : (ts.headD Token.stop).kind = kind) (hb : kind.isSourced = false) (he : kind ≠ .endOfFile) :
    ∃ t u ts' us', ts = t :: ts' ∧ us = u :: us' ∧ t.Alike ρ u ∧ t.kind = kind ∧
      Twin ρ S T (b.step kind) ts' us' := by
  obtain ⟨t, u, more, others, rfl, rfl, ht, -, hmore⟩ | ⟨t, more, rfl, hmid, -⟩ |
    ⟨-, s, r, more, others, hs, -, -, rfl, -, -⟩ := h.start hfresh
  · rw [List.headD_cons] at hk
    exact ⟨t, u, more, others, rfl, rfl, ht, hk, hk ▸ hmore.resolve_left (hk ▸ he)⟩
  · rw [List.headD_cons] at hk
    rw [hk, hb] at hmid
    cases hmid
  · obtain ⟨t, rest, rfl, ht, -⟩ := hS hs
    have hident : t.kind = kind := hk
    rw [← hident, ht] at hb
    cases hb

-- A block that opens is headed by the line before it.
theorem Both.indented {b : Blocks} {p q : Parser β} (hS : Named S) (hT : Named T)
    (hfresh : b.fresh = true)
    (hp : Both (Start ρ S T (b.heading :: b.heads)) p q Q J (Blamed ρ n m)) :
    Both (Twin ρ S T b) (expect .indent >>= fun _ => p) (expect .indent >>= fun _ => q) Q J
      (Blamed ρ n m) := by
  intro ts us h
  have hstart : Start ρ S T b.heads ts us := ⟨b, hfresh, rfl, h⟩
  have hhead := hstart.head_alike hS hT
  by_cases hkind : (ts.headD Token.stop).kind = .indent
  · obtain ⟨t, u, ts', us', rfl, rfl, ht, hk, htwin⟩ := h.break hS hfresh hkind rfl (by decide)
    rw [expect_takes hk, expect_takes (ht.kind ▸ hk)]
    exact hp ⟨b.step .indent, rfl, rfl, htwin⟩
  · rw [expect_refuses hkind, expect_refuses (hhead.kind ▸ hkind)]
    exact both_unexpected _ hhead

-- A line that has to start with a token of a kind.
theorem Both.opened {f g : Token → Parser β} (hS : Named S) (hT : Named T)
    (hb : kind.isSourced = true) (hi : kind ≠ .ident)
    (hf : ∀ (t u : Token) (c : Blocks), t.Alike ρ u → c.heads = heads →
      c.heading = (kind == .kwDef) → Both (Poised ρ S T c) (f t) (g u) Q J (Blamed ρ n m)) :
    Both (Start ρ S T heads) (expect kind >>= f) (expect kind >>= g) Q J (Blamed ρ n m) := by
  intro ts us h
  have hhead := h.head_alike hS hT
  by_cases hk : (ts.headD Token.stop).kind = kind
  · obtain ⟨c, hheads, hheading, hpoised⟩ := h.poised hS hk hb hi
    exact Both.expected hb (fun t u htu _ => hf t u c htu hheads hheading) hpoised
  · rw [expect_refuses hk, expect_refuses (hhead.kind ▸ hk)]
    exact both_unexpected _ hhead

theorem Both.fails {expected : List TokenKind}
    (hhead : ∀ ts us, I ts us → (ts.headD Token.stop).Alike ρ (us.headD Token.stop)) :
    Both I (unexpected expected) (unexpected expected) Q J (Blamed ρ n m) :=
  fun ts us h => both_unexpected expected (hhead ts us h)

theorem Start.stream (hS : Named S) (hT : Named T) (h : Start ρ S T heads ts us) :
    Stream ts ∧ Stream us := by
  obtain ⟨b, -, -, htwin⟩ := h
  exact htwin.stream hS hT

theorem Follows.stream (hS : Named S) (hT : Named T) (h : Follows ρ S T heads ts us) :
    Stream ts ∧ Stream us := by
  obtain hstart | ⟨hts, hus⟩ := h
  · exact hstart.stream hS hT
  · exact ⟨hts.stream, hus.stream⟩

-- The end of a source has only dedents and the end of the file.
theorem Closes.head {count : Nat} (h : Closes count ts) :
    (ts.headD Token.stop).kind = .dedent ∨ (ts.headD Token.stop).kind = .endOfFile := by
  obtain ⟨dedents, e, rfl, -, hdedents, he⟩ := h
  cases dedents with
  | nil => exact .inr he
  | cons d rest => exact .inl (hdedents d List.mem_cons_self)

theorem Closes.ended (h : Closes 0 ts) : (ts.headD Token.stop).kind = .endOfFile := by
  obtain ⟨dedents, e, rfl, hlength, -, he⟩ := h
  rw [List.eq_nil_of_length_eq_zero hlength]
  exact he

-- The test for the end of a block.
theorem Follows.dedent (hS : Named S) (hT : Named T) {head : Bool}
    (h : Follows ρ S T (head :: heads) ts us) :
    (∃ ts' us', accept .dedent ts = .ok true ts' ∧ accept .dedent us = .ok true us' ∧
      Follows ρ S T heads ts' us') ∨
    accept .dedent ts = .ok false ts ∧ accept .dedent us = .ok false us ∧
      Start ρ S T (head :: heads) ts us := by
  obtain hstart | ⟨hts, hus⟩ := h
  · have hhead := hstart.head_alike hS hT
    by_cases hk : (ts.headD Token.stop).kind = .dedent
    · obtain ⟨b, hfresh, hheads, htwin⟩ := hstart
      obtain ⟨t, u, ts', us', rfl, rfl, htu, ht, hrest⟩ :=
        htwin.break hS hfresh hk rfl (by decide)
      have hopen : (b.step .dedent).heads = heads := by
        rw [Blocks.step, hheads, List.tail_cons]
      exact .inl ⟨ts', us', accept_takes ht, accept_takes (htu.kind ▸ ht), .inl ⟨_, rfl, hopen, hrest⟩⟩
    · exact .inr ⟨accept_refuses hk, accept_refuses (hhead.kind ▸ hk), hstart⟩
  · have hclose {tokens : List Token} (h : Closes (head :: heads).length tokens) :
        ∃ rest, accept .dedent tokens = .ok true rest ∧ Closes heads.length rest := by
      obtain ⟨dedents, e, rfl, hlength, hdedents, he⟩ := h
      cases dedents with
      | nil => cases hlength
      | cons d rest =>
          obtain ⟨hd, hrest⟩ := List.forall_mem_cons.mp hdedents
          exact ⟨rest ++ [e], accept_takes hd, rest, e, rfl, Nat.succ.inj hlength, hrest, he⟩
    obtain ⟨ts', haccept, hts'⟩ := hclose hts
    obtain ⟨us', haccept', hus'⟩ := hclose hus
    exact .inl ⟨ts', us', haccept, haccept', .inr ⟨hts', hus'⟩⟩

-- A word that goes on with a conditional stands at the beginning of a line.
theorem Follows.word (hS : Named S) (hT : Named T) (hk : kind.isSourced = true)
    (hi : kind ≠ .ident) (h : Follows ρ S T heads ts us) :
    (∃ c : Blocks, c.heads = heads ∧ Before kind (Poised ρ S T c) ts us) ∨
    (ts.headD Token.stop).kind ≠ kind ∧ (us.headD Token.stop).kind ≠ kind := by
  obtain hstart | ⟨hts, hus⟩ := h
  · have hhead := hstart.head_alike hS hT
    by_cases hkind : (ts.headD Token.stop).kind = kind
    · obtain ⟨c, hheads, -, hpoised⟩ := hstart.poised hS hkind hk hi
      exact .inl ⟨c, hheads, hpoised, hkind⟩
    · exact .inr ⟨hkind, hhead.kind ▸ hkind⟩
  · have hend {tokens : List Token} (h : Closes heads.length tokens) :
        (tokens.headD Token.stop).kind ≠ kind := by
      rintro rfl
      obtain hd | he := h.head
      · rw [hd] at hk
        cases hk
      · rw [he] at hk
        cases hk
    exact .inr ⟨hend hts, hend hus⟩

end

end Parser

end TypeStub
