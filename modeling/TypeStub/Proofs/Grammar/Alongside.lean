import TypeStub.Proofs.Grammar.Yields
import TypeStub.Proofs.Token.Extent

-- Two runs of a parser, over tokens that differ in nothing but their places.
namespace TypeStub

-- Tokens of one kind and text, on lines that are related.
structure Token.Alike (ρ : Int32 → Int32 → Prop) (t u : Token) : Prop where
  kind : t.kind = u.kind
  text : t.text = u.text
  line : ρ t.place.line u.place.line

namespace Parser

-- Tokens up to a break of some kind, pairwise alike.
inductive Stretch (ρ : Int32 → Int32 → Prop) (stop : TokenKind) : List Token → List Token → Prop
  | last {t u : Token} : t.Alike ρ u → t.kind = stop → stop.isSourced = false →
      Stretch ρ stop [t] [u]
  | cons {t u : Token} {ts us : List Token} : t.Alike ρ u → t.kind.isSourced = true →
      Stretch ρ stop ts us → Stretch ρ stop (t :: ts) (u :: us)

-- Tokens that go on with a stretch, and with anything after its break.
def Within (ρ : Int32 → Int32 → Prop) (stop : TokenKind) (more others ts us : List Token) : Prop :=
  ∃ front back, Stretch ρ stop front back ∧ ts = front ++ more ∧ us = back ++ others

-- Two runs that end alike: with related results and tokens, or with one error.
inductive Matches {α : Type} (R : α → α → Prop) (J : List Token → List Token → Prop)
    (E : SyntaxError → List Token → List Token → Prop) :
    EStateM.Result SyntaxError (List Token) α → EStateM.Result SyntaxError (List Token) α → Prop
  | ok {a b : α} {ts us : List Token} : R a b → J ts us → Matches R J E (.ok a ts) (.ok b us)
  | error {e : SyntaxError} {ts us : List Token} : E e ts us →
      Matches R J E (.error e ts) (.error e us)

-- A parser that does the same on both sides of a stretch and does not go beyond its break.
def Alongside (ρ : Int32 → Int32 → Prop) {α : Type} (pre : List Token → Prop) (p : Parser α) : Prop :=
  ∀ ⦃stop more others ts us⦄, Within ρ stop more others ts us → pre ts →
    Matches Eq (Within ρ stop more others) (fun _ => Within ρ stop more others) (p ts) (p us)

-- What comes after a token does not depend on where the token stands.
def Placeless {α : Type} (f : Token → α) : Prop :=
  ∀ ⦃t u : Token⦄, t.kind = u.kind → t.text = u.text → f t = f u

section

variable {α β : Type} {ρ : Int32 → Int32 → Prop} {pre : List Token → Prop} {p : Parser α}
  {stop : TokenKind} {more others ts us : List Token}

-- The first tokens are alike, and what comes after them is a stretch again unless they are breaks.
theorem Within.head (h : Within ρ stop more others ts us) : ∃ t u ts' us', ts = t :: ts' ∧
    us = u :: us' ∧ t.Alike ρ u ∧ (t.kind.isSourced = false ∧ t.kind = stop ∧ ts' = more ∧ us' = others ∨
      t.kind.isSourced = true ∧ Within ρ stop more others ts' us') := by
  obtain ⟨front, back, hstretch, rfl, rfl⟩ := h
  cases hstretch with
  | last ht hk hb => exact ⟨_, _, more, others, rfl, rfl, ht, .inl ⟨hk ▸ hb, hk, rfl, rfl⟩⟩
  | cons ht hb hrest => exact ⟨_, _, _, _, rfl, rfl, ht, .inr ⟨hb, _, _, hrest, rfl, rfl⟩⟩

theorem Within.cons {t u : Token} (ht : t.Alike ρ u) (hb : t.kind.isSourced = true)
    (h : Within ρ stop more others ts us) : Within ρ stop more others (t :: ts) (u :: us) := by
  obtain ⟨front, back, hstretch, rfl, rfl⟩ := h
  exact ⟨t :: front, u :: back, .cons ht hb hstretch, rfl, rfl⟩

theorem Within.break {t u : Token} (ht : t.Alike ρ u) (hb : t.kind.isSourced = false) :
    Within ρ t.kind more others (t :: more) (u :: others) := ⟨[t], [u], .last ht rfl hb, rfl, rfl⟩

-- Both sides are of one length up to what comes after the break.
theorem Within.length_eq (h : Within ρ stop more others ts us) :
    ts.length + others.length = us.length + more.length := by
  obtain ⟨front, back, hstretch, rfl, rfl⟩ := h
  have hlength : front.length = back.length := by
    induction hstretch with
    | last => rfl
    | cons _ _ _ ih => simp [ih]
  simp only [List.length_append]
  omega

theorem Within.head_alike (h : Within ρ stop more others ts us) :
    (ts.headD Token.stop).Alike ρ (us.headD Token.stop) := by
  obtain ⟨t, u, ts', us', rfl, rfl, ht, -⟩ := h.head
  exact ht

theorem Alongside.pure {a : α} : Alongside ρ pre (Pure.pure a) := fun _ _ _ _ _ hw _ => .ok rfl hw

theorem Alongside.bind {f : α → Parser β} (hp : Alongside ρ pre p)
    (hf : ∀ a, Alongside ρ Anywhere (f a)) : Alongside ρ pre (p >>= f) := by
  intro stop more others ts us hw hpre
  have hfirst := hp hw hpre
  simp only [Bind.bind, EStateM.bind]
  generalize p ts = left, p us = right at hfirst ⊢
  cases hfirst with
  | ok hab hrest => exact hab ▸ hf _ hrest trivial
  | error hrest => exact .error hrest

theorem Alongside.map {f : α → β} (hp : Alongside ρ pre p) : Alongside ρ pre (f <$> p) := by
  rw [map_eq_pure_bind]
  exact hp.bind fun _ => .pure

theorem Alongside.ite {c : Prop} [Decidable c] {q : Parser α} (hp : c → Alongside ρ pre p)
    (hq : ¬c → Alongside ρ pre q) : Alongside ρ pre (if c then p else q) := by
  split
  · exact hp ‹_›
  · exact hq ‹_›

theorem Alongside.peek {f : Token → Parser β} (hsame : Placeless f)
    (hf : ∀ t, Alongside ρ (fun tokens => pre tokens ∧ Ahead t tokens) (f t)) :
    Alongside ρ pre (Parser.peek >>= f) := by
  intro stop more others ts us hw hpre
  have ht := hw.head_alike
  rw [peek_bind, peek_bind, ← hsame ht.kind ht.text]
  exact hf _ hw ⟨hpre, rfl⟩

-- A second token that is only looked at where the first is no break.
theorem Alongside.peekNext {t : Token} {f : Token → Parser β} (hb : t.kind.isSourced = true)
    (hsame : Placeless f)
    (hf : ∀ v, Alongside ρ (fun tokens => (pre tokens ∧ Ahead t tokens) ∧ AheadNext v tokens) (f v)) :
    Alongside ρ (fun tokens => pre tokens ∧ Ahead t tokens) (Parser.peekNext >>= f) := by
  intro stop more others ts us hw hpre
  obtain ⟨t', u, ts', us', rfl, rfl, ht, hrest⟩ := hw.head
  obtain rfl : t' = t := hpre.2
  obtain ⟨hbreak, -⟩ | ⟨-, hafter⟩ := hrest
  · rw [hb] at hbreak
    cases hbreak
  · have hnext := hafter.head_alike
    have hv : ∀ first : Token, ∀ tokens : List Token, (Parser.peekNext >>= f) (first :: tokens) =
        f (tokens.headD Token.stop) (first :: tokens) := by
      intro first tokens
      cases tokens <;> rfl
    rw [hv, hv, ← hsame hnext.kind hnext.text]
    refine hf _ hw ⟨hpre, ?_⟩
    cases ts' <;> rfl

theorem matches_unexpected {R : α → α → Prop} {J : List Token → List Token → Prop}
    {E : SyntaxError → List Token → List Token → Prop} (expected : List TokenKind)
    (hkind : (ts.headD Token.stop).kind = (us.headD Token.stop).kind)
    (htext : (ts.headD Token.stop).text = (us.headD Token.stop).text) (hE : ∀ e, E e ts us) :
    Matches R J E (unexpected expected ts) (unexpected expected us) := by
  simp only [unexpected, hkind, htext]
  exact .error (hE _)

theorem alongside_unexpected (expected : List TokenKind) :
    Alongside ρ pre (unexpected expected : Parser α) := by
  intro stop more others ts us hw _
  exact matches_unexpected expected hw.head_alike.kind hw.head_alike.text fun _ => hw

theorem expect_takes {kind : TokenKind} {t : Token} {tokens : List Token} {f : Token → Parser β}
    (h : t.kind = kind) : (expect kind >>= f) (t :: tokens) = f t tokens := by
  simp [expect, peek, peekAt, accept, Bind.bind, EStateM.bind, Pure.pure, EStateM.pure, h]

theorem expect_refuses {kind : TokenKind} {tokens : List Token} {f : Token → Parser β}
    (h : (tokens.headD Token.stop).kind ≠ kind) :
    (expect kind >>= f) tokens = (unexpected [kind] : Parser β) tokens := by
  cases tokens with
  | nil => rfl
  | cons t rest =>
      rw [List.headD_cons] at h
      simp [expect, peek, peekAt, accept, unexpected, Bind.bind, EStateM.bind, h]

theorem Alongside.expect {kind : TokenKind} {f : Token → Parser β} (hk : kind.isSourced = true)
    (hsame : Placeless f) (hf : ∀ t, t.kind = kind → Alongside ρ Anywhere (f t)) :
    Alongside ρ pre (expect kind >>= f) := by
  intro stop more others ts us hw _
  obtain ⟨t, u, ts', us', rfl, rfl, ht, hrest⟩ := hw.head
  by_cases hkind : t.kind = kind
  · obtain ⟨hbreak, -⟩ | ⟨-, hafter⟩ := hrest
    · rw [hkind, hk] at hbreak
      cases hbreak
    · rw [expect_takes hkind, expect_takes (ht.kind ▸ hkind), ← hsame ht.kind ht.text]
      exact hf t hkind hafter trivial
  · have hleft : ((t :: ts').headD Token.stop).kind ≠ kind := hkind
    have hright : ((u :: us').headD Token.stop).kind ≠ kind := fun hu => hkind (ht.kind.trans hu)
    rw [expect_refuses hleft, expect_refuses hright]
    have hfails : Alongside ρ Anywhere (unexpected [kind] : Parser β) := alongside_unexpected [kind]
    exact hfails hw trivial

-- A repetition goes on or ends on both sides, as both have taken the same number of tokens.
theorem Alongside.repeatUntil {test : Parser Bool} {item : Parser α} (htest : Alongside ρ Anywhere test)
    (hitem : Alongside ρ Anywhere item) : Alongside ρ pre (repeatUntil test item) := by
  intro stop more others ts us hw hpre
  clear hpre
  induction hn : ts.length using Nat.strongRecOn generalizing ts us with
  | ind n ih =>
      rw [Parser.repeatUntil, Parser.repeatUntil]
      have hstop := htest hw trivial
      generalize test ts = left, test us = right at hstop ⊢
      cases hstop with
      | error hrest => exact .error hrest
      | @ok a b middle after hab hmiddle =>
          subst hab
          cases a with
          | true => exact .ok rfl hmiddle
          | false =>
              have hone := hitem hmiddle trivial
              dsimp only
              generalize item middle = first, item after = second at hone ⊢
              cases hone with
              | error hrest => exact .error hrest
              | @ok a b rest final hab hrest =>
                  subst hab
                  have hleft := hw.length_eq
                  have hright := hrest.length_eq
                  by_cases hless : rest.length < ts.length
                  · have hshort : final.length < us.length := by omega
                    have hagain := ih rest.length (hn ▸ hless) hrest rfl
                    simp only [if_pos hless, if_pos hshort]
                    generalize Parser.repeatUntil test item rest = third,
                      Parser.repeatUntil test item final = fourth at hagain ⊢
                    cases hagain with
                    | error hlast => exact .error hlast
                    | ok hlist hlast => exact .ok (hlist ▸ rfl) hlast
                  · have hlong : ¬ final.length < us.length := by omega
                    simp only [if_neg hless, if_neg hlong]
                    exact .ok rfl hrest

end

end Parser

end TypeStub
