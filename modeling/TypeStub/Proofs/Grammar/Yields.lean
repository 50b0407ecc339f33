import TypeStub.Grammar.Parser
import TypeStub.Proofs.Token.Identifier

namespace TypeStub

-- A token that a parser may take: neither an error nor the end of the file.
def Token.Takeable (t : Token) : Prop := t.kind ≠ .error ∧ t.kind ≠ .endOfFile

-- The same by its kind, for a kind that is known.
def TokenKind.isTakeable : TokenKind → Bool
  | .error | .endOfFile => false
  | _ => true

theorem Token.Takeable.of_kind {t : Token} {kind : TokenKind} (h : t.kind = kind)
    (hk : kind.isTakeable = true) : t.Takeable := by
  subst h
  refine ⟨fun he => ?_, fun he => ?_⟩
  · simp [he, TokenKind.isTakeable] at hk
  · simp [he, TokenKind.isTakeable] at hk

-- What a syntax error tells of the token at fault.
def SyntaxError.Blames (t : Token) : SyntaxError → Prop
  | .unexpected found _ => found = t.kind ∧ t.kind ≠ .error
  | .lexical message => t.kind = .error ∧ message = t.text
  | .nestingTooDeep => True

namespace Parser

-- Tokens of a source from some point on. The last one is the end of the file.
structure Stream (tokens : List Token) : Prop where
  lexed : ∀ t ∈ tokens, t.Lexed
  ended : ∃ body e, tokens = body ++ [e] ∧ e.kind = .endOfFile

-- What is left of tokens after some that may be taken.
def Leaves (tokens rest : List Token) : Prop :=
  ∃ taken, tokens = taken ++ rest ∧ ∀ t ∈ taken, t.Takeable

-- How a run over tokens ends. It takes only what may be taken. When it succeeds, its result is
-- such; when it fails, the first token left is at fault.
def Outcome {α : Type} (tokens : List Token) (Q : α → Prop) :
    EStateM.Result SyntaxError (List Token) α → Prop
  | .ok a rest => Q a ∧ Leaves tokens rest
  | .error e rest => e.Blames (rest.headD Token.stop) ∧ Leaves tokens rest

-- A parser that ends so wherever the tokens ahead are such.
def Yields {α : Type} (pre : List Token → Prop) (p : Parser α) (Q : α → Prop) : Prop :=
  ∀ ⦃tokens : List Token⦄, Stream tokens → pre tokens → Outcome tokens Q (p tokens)

-- The same, and a run that succeeds takes at least one token.
structure Consumes {α : Type} (pre : List Token → Prop) (p : Parser α) (Q : α → Prop) : Prop where
  yields : Yields pre p Q
  shorter : ∀ ⦃tokens : List Token⦄ ⦃a : α⦄ ⦃rest : List Token⦄, Stream tokens → pre tokens →
    p tokens = .ok a rest → rest.length < tokens.length

-- Any tokens may be ahead.
def Anywhere (_ : List Token) : Prop := True

-- This token is the first of those ahead.
def Ahead (t : Token) (tokens : List Token) : Prop := tokens.headD Token.stop = t

-- This token is the second of those ahead.
def AheadNext (t : Token) (tokens : List Token) : Prop := tokens.getD 1 Token.stop = t

section

variable {tokens middle rest : List Token}

theorem Leaves.refl (tokens : List Token) : Leaves tokens tokens :=
  ⟨[], rfl, fun _ ht => absurd ht List.not_mem_nil⟩

theorem Leaves.trans (h : Leaves tokens middle) (hm : Leaves middle rest) : Leaves tokens rest := by
  obtain ⟨taken, rfl, htaken⟩ := h
  obtain ⟨more, rfl, hmore⟩ := hm
  exact ⟨taken ++ more, (List.append_assoc ..).symm, List.forall_mem_append.mpr ⟨htaken, hmore⟩⟩

theorem Leaves.cons {t : Token} (h : t.Takeable) (rest : List Token) : Leaves (t :: rest) rest :=
  ⟨[t], rfl, by simpa using h⟩

theorem Leaves.length_le (h : Leaves tokens rest) : rest.length ≤ tokens.length := by
  obtain ⟨taken, rfl, -⟩ := h
  simp

-- The end is never taken, so that it is still ahead.
theorem Stream.leaves (h : Stream tokens) (hl : Leaves tokens rest) : Stream rest := by
  obtain ⟨taken, rfl, htaken⟩ := hl
  obtain ⟨body, e, heq, he⟩ := h.ended
  refine ⟨fun t ht => h.lexed t (List.mem_append_right taken ht), ?_⟩
  obtain ⟨more, hbody, hrest⟩ | ⟨more, htail, hrest⟩ := List.append_eq_append_iff.mp heq
  · exact ⟨more, e, hrest, he⟩
  · cases more with
    | nil => exact ⟨[], e, hrest.symm, he⟩
    | cons last others =>
        obtain ⟨rfl, -⟩ := List.cons.inj hrest
        exact absurd he (htaken e (by simp [htail])).2

theorem Stream.cons_of (h : Stream tokens) : ∃ t more, tokens = t :: more ∧ t.Lexed := by
  obtain ⟨body, e, rfl, -⟩ := h.ended
  cases body with
  | nil => exact ⟨e, [], rfl, h.lexed e (by simp)⟩
  | cons t more => exact ⟨t, more ++ [e], rfl, h.lexed t (by simp)⟩

end

section

variable {α β : Type} {pre : List Token → Prop} {p : Parser α} {Q : α → Prop}
  {tokens rest : List Token}

theorem Yields.ok {a : α} (h : Yields pre p Q) (hs : Stream tokens) (hp : pre tokens)
    (hr : p tokens = .ok a rest) : Q a ∧ Leaves tokens rest := by
  have ho := h hs hp
  rwa [hr] at ho

theorem Yields.error {e : SyntaxError} (h : Yields pre p Q) (hs : Stream tokens) (hp : pre tokens)
    (hr : p tokens = .error e rest) :
    e.Blames (rest.headD Token.stop) ∧ Leaves tokens rest := by
  have ho := h hs hp
  rwa [hr] at ho

theorem Yields.mono {R : α → Prop} (h : Yields pre p Q) (hw : ∀ a, Q a → R a) :
    Yields pre p R := by
  intro tokens hs hp
  have ho := h hs hp
  cases hr : p tokens with
  | ok a rest =>
      rw [hr] at ho
      exact ⟨hw a ho.1, ho.2⟩
  | error e rest =>
      rw [hr] at ho
      exact ho

theorem Yields.pure {a : α} (h : Q a) : Yields pre (Pure.pure a) Q :=
  fun tokens _ _ => ⟨h, .refl tokens⟩

theorem bind_ok {f : α → Parser β} {b : β} (h : (p >>= f) tokens = .ok b rest) :
    ∃ a middle, p tokens = .ok a middle ∧ f a middle = .ok b rest := by
  simp only [bind, EStateM.bind] at h
  split at h
  · exact ⟨_, _, by assumption, h⟩
  · simp at h

theorem Yields.bind {f : α → Parser β} {R : β → Prop} (hp : Yields pre p Q)
    (hf : ∀ a, Q a → Yields Anywhere (f a) R) : Yields pre (p >>= f) R := by
  intro tokens hs h1
  have ho := hp hs h1
  simp only [Bind.bind, EStateM.bind]
  cases hr : p tokens with
  | error e middle =>
      rw [hr] at ho
      exact ho
  | ok a middle =>
      rw [hr] at ho
      obtain ⟨hq, hm⟩ := ho
      have hafter := hf a hq (hs.leaves hm) trivial
      dsimp only
      cases hb : f a middle with
      | ok b rest =>
          rw [hb] at hafter
          exact ⟨hafter.1, hm.trans hafter.2⟩
      | error e rest =>
          rw [hb] at hafter
          exact ⟨hafter.1, hm.trans hafter.2⟩

theorem Yields.map {f : α → β} {R : β → Prop} (hp : Yields pre p Q)
    (hf : ∀ a, Q a → R (f a)) : Yields pre (f <$> p) R := by
  rw [map_eq_pure_bind]
  exact hp.bind fun a ha => .pure (hf a ha)

theorem Yields.ite {c : Prop} [Decidable c] {q : Parser α} (hp : c → Yields pre p Q)
    (hq : ¬c → Yields pre q Q) : Yields pre (if c then p else q) Q := by
  split
  · exact hp ‹_›
  · exact hq ‹_›

theorem Consumes.bind {f : α → Parser β} {R : β → Prop} (hp : Consumes pre p Q)
    (hf : ∀ a, Q a → Yields Anywhere (f a) R) : Consumes pre (p >>= f) R := by
  refine ⟨hp.yields.bind hf, fun tokens b rest hs h1 h => ?_⟩
  obtain ⟨a, middle, ha, hb⟩ := bind_ok h
  obtain ⟨hq, hm⟩ := hp.yields.ok hs h1 ha
  have hrest := ((hf a hq).ok (hs.leaves hm) trivial hb).2.length_le
  exact Nat.lt_of_le_of_lt hrest (hp.shorter hs h1 ha)

-- The token may be taken by the second of two parsers.
theorem Consumes.after {f : α → Parser β} {R : β → Prop} (hp : Yields pre p Q)
    (hf : ∀ a, Q a → Consumes Anywhere (f a) R) : Consumes pre (p >>= f) R := by
  refine ⟨hp.bind fun a ha => (hf a ha).yields, fun tokens b rest hs h1 h => ?_⟩
  obtain ⟨a, middle, ha, hb⟩ := bind_ok h
  obtain ⟨hq, hm⟩ := hp.ok hs h1 ha
  exact Nat.lt_of_lt_of_le ((hf a hq).shorter (hs.leaves hm) trivial hb) hm.length_le

theorem Consumes.ite {c : Prop} [Decidable c] {q : Parser α} (hp : c → Consumes pre p Q)
    (hq : ¬c → Consumes pre q Q) : Consumes pre (if c then p else q) Q := by
  split
  · exact hp ‹_›
  · exact hq ‹_›

theorem Consumes.mono {R : α → Prop} (h : Consumes pre p Q) (hw : ∀ a, Q a → R a) :
    Consumes pre p R := ⟨h.yields.mono hw, h.shorter⟩

theorem peek_bind (f : Token → Parser β) (tokens : List Token) :
    (Parser.peek >>= f) tokens = f (tokens.headD Token.stop) tokens := by
  rw [List.headD_eq_head?_getD, List.head?_eq_getElem?, ← List.getD_eq_getElem?_getD]
  rfl

theorem Stream.head_lexed (h : Stream tokens) : (tokens.headD Token.stop).Lexed := by
  obtain ⟨t, more, rfl, ht⟩ := h.cons_of
  exact ht

-- What is known of the token that was looked at holds of the first token afterwards.
theorem Yields.peek {f : Token → Parser β} {R : β → Prop}
    (hf : ∀ t, t.Lexed → Yields (fun tokens => pre tokens ∧ Ahead t tokens) (f t) R) :
    Yields pre (Parser.peek >>= f) R := by
  intro tokens hs h1
  rw [peek_bind]
  exact hf _ hs.head_lexed hs ⟨h1, rfl⟩

-- The kind of the first token says which token it is.
theorem Yields.ofKind {kind : TokenKind}
    (hf : ∀ t, t.kind = kind → Yields (fun tokens => Anywhere tokens ∧ Ahead t tokens) p Q) :
    Yields (fun tokens => (tokens.headD Token.stop).kind = kind) p Q :=
  fun _ hs hk => hf _ hk hs ⟨trivial, rfl⟩

theorem Consumes.peek {f : Token → Parser β} {R : β → Prop}
    (hf : ∀ t, t.Lexed → Consumes (fun tokens => pre tokens ∧ Ahead t tokens) (f t) R) :
    Consumes pre (Parser.peek >>= f) R := by
  refine ⟨.peek fun t ht => (hf t ht).yields, fun tokens b rest hs h1 h => ?_⟩
  rw [peek_bind] at h
  exact (hf _ hs.head_lexed).shorter hs ⟨h1, rfl⟩ h

-- A test that takes no token leaves all that is known of those ahead.
theorem Yields.look {f : α → Parser β} {R : β → Prop} {see : List Token → α}
    (hp : ∀ tokens, p tokens = .ok (see tokens) tokens) (hf : ∀ a, Yields pre (f a) R) :
    Yields pre (p >>= f) R := by
  intro tokens hs h1
  simp only [Bind.bind, EStateM.bind, hp]
  exact hf _ hs h1

theorem Yields.peekNext {f : Token → Parser β} {R : β → Prop}
    (hf : ∀ t, Yields (fun tokens => pre tokens ∧ AheadNext t tokens) (f t) R) :
    Yields pre (Parser.peekNext >>= f) R := by
  intro tokens hs h1
  show Outcome tokens R (f (tokens.getD 1 Token.stop) tokens)
  exact hf _ hs ⟨h1, rfl⟩

theorem Consumes.peekNext {f : Token → Parser β} {R : β → Prop}
    (hf : ∀ t, Consumes (fun tokens => pre tokens ∧ AheadNext t tokens) (f t) R) :
    Consumes pre (Parser.peekNext >>= f) R :=
  ⟨.peekNext fun t => (hf t).yields, fun _ _ _ hs hp h => (hf _).shorter hs ⟨hp, rfl⟩ h⟩

theorem consumes_next {t : Token} (h : t.Takeable) :
    Consumes (fun tokens => pre tokens ∧ Ahead t tokens) next fun u => u = t ∧ u.Lexed := by
  refine ⟨fun tokens hs hp => ?_, fun tokens a rest hs _ hr => ?_⟩
  · obtain ⟨u, more, rfl, hu⟩ := hs.cons_of
    obtain rfl : u = t := hp.2
    exact ⟨⟨rfl, hu⟩, .cons h more⟩
  · obtain ⟨u, more, rfl, -⟩ := hs.cons_of
    obtain ⟨-, rfl⟩ := (EStateM.Result.ok.injEq ..).mp hr
    exact Nat.lt_succ_self _

theorem yields_next {t : Token} (h : t.Takeable) :
    Yields (fun tokens => pre tokens ∧ Ahead t tokens) next fun u => u = t ∧ u.Lexed :=
  (consumes_next h).yields

-- Two tokens that were both looked at.
theorem Yields.nextTwo {t u : Token} {f : Token → Token → Parser β} {R : β → Prop}
    (ht : t.Takeable) (hu : u.Takeable) (hf : Yields Anywhere (f t u) R) :
    Yields (fun tokens => (pre tokens ∧ Ahead t tokens) ∧ AheadNext u tokens)
      (next >>= fun first => next >>= fun second => f first second) R := by
  intro tokens hs hp
  obtain ⟨first, more, rfl, -⟩ := hs.cons_of
  obtain rfl : first = t := hp.1.2
  have hmore := hs.leaves (.cons ht more)
  obtain ⟨second, others, rfl, -⟩ := hmore.cons_of
  obtain rfl : second = u := hp.2
  have hrest : Leaves (first :: second :: others) others :=
    (Leaves.cons ht _).trans (.cons hu others)
  show Outcome _ R (f first second others)
  have ho := hf (hs.leaves hrest) trivial
  cases hr : f first second others with
  | ok b last =>
      rw [hr] at ho
      exact ⟨ho.1, hrest.trans ho.2⟩
  | error e last =>
      rw [hr] at ho
      exact ⟨ho.1, hrest.trans ho.2⟩

theorem Consumes.nextTwo {t u : Token} {f : Token → Token → Parser β} {R : β → Prop}
    (ht : t.Takeable) (hu : u.Takeable) (hf : Yields Anywhere (f t u) R) :
    Consumes (fun tokens => (pre tokens ∧ Ahead t tokens) ∧ AheadNext u tokens)
      (next >>= fun first => next >>= fun second => f first second) R := by
  refine ⟨.nextTwo ht hu hf, fun tokens b rest hs hp h => ?_⟩
  obtain ⟨first, more, rfl, -⟩ := hs.cons_of
  obtain rfl : first = t := hp.1.2
  have hmore := hs.leaves (.cons ht more)
  obtain ⟨second, others, rfl, -⟩ := hmore.cons_of
  obtain rfl : second = u := hp.2
  have hrest := (hf.ok (hmore.leaves (.cons hu others)) trivial h).2.length_le
  simp only [List.length_cons]
  omega

theorem accept_leaves (kind : TokenKind) {t : Token} (more : List Token) :
    accept kind (t :: more) = .ok true more ∧ t.kind = kind ∨
      accept kind (t :: more) = .ok false (t :: more) := by
  by_cases hk : t.kind = kind
  · exact .inl ⟨by simp [accept, hk], hk⟩
  · exact .inr (by simp [accept, hk])

theorem yields_accept (kind : TokenKind)
    (hk : kind.isTakeable = true) :
    Yields pre (accept kind) fun _ => True := by
  intro tokens hs _
  obtain ⟨t, more, rfl, -⟩ := hs.cons_of
  obtain ⟨hr, ht⟩ | hr := accept_leaves kind (t := t) more
  · rw [hr]
    exact ⟨trivial, .cons (Token.Takeable.of_kind ht hk) more⟩
  · rw [hr]
    exact ⟨trivial, .refl _⟩

-- A token of a kind may be taken, and otherwise there is another.
theorem Consumes.accept {kind : TokenKind} {q r : Parser α} (hk : kind.isTakeable = true)
    (hq : Yields Anywhere q Q) (hr : Consumes Anywhere r Q) :
    Consumes pre (Parser.accept kind >>= fun found => if found = true then q else r) Q := by
  refine ⟨.bind (yields_accept kind hk) fun _ _ => .ite (fun _ => hq) fun _ => hr.yields,
    fun tokens a rest hs _ h => ?_⟩
  obtain ⟨t, more, rfl, -⟩ := hs.cons_of
  obtain ⟨found, middle, haccept, h⟩ := bind_ok h
  obtain ⟨hrun, ht⟩ | hrun := accept_leaves kind (t := t) more
  · rw [hrun] at haccept
    obtain ⟨rfl, rfl⟩ := (EStateM.Result.ok.injEq ..).mp haccept
    exact Nat.lt_succ_of_le (hq.ok (hs.leaves (.cons (.of_kind ht hk) more)) trivial h).2.length_le
  · rw [hrun] at haccept
    obtain ⟨rfl, rfl⟩ := (EStateM.Result.ok.injEq ..).mp haccept
    exact hr.shorter hs trivial h

theorem yields_unexpected (expected : List TokenKind) : Yields pre (unexpected expected) Q := by
  intro tokens _ _
  refine ⟨?_, .refl tokens⟩
  split
  · exact ⟨‹_›, rfl⟩
  · exact ⟨rfl, ‹_›⟩

theorem yields_unexpected_bind (expected : List TokenKind) {f : β → Parser α} :
    Yields pre (unexpected expected >>= f) Q :=
  .bind (Q := fun _ => False) (yields_unexpected _) fun _ => False.elim

theorem yields_tooDeep : Yields pre tooDeep Q := fun tokens _ _ => ⟨trivial, .refl tokens⟩

theorem consumes_tooDeep : Consumes pre tooDeep Q :=
  ⟨yields_tooDeep, fun _ _ _ _ _ h => by simp [tooDeep] at h⟩

theorem consumes_unexpected (expected : List TokenKind) : Consumes pre (unexpected expected) Q :=
  ⟨yields_unexpected expected, fun _ _ _ _ _ h => by simp [unexpected] at h⟩

theorem consumes_unexpected_bind (expected : List TokenKind) {f : β → Parser α} :
    Consumes pre (unexpected expected >>= f) Q :=
  .bind (Q := fun _ => False) (consumes_unexpected _) fun _ => False.elim

theorem consumes_expect (kind : TokenKind)
    (hk : kind.isTakeable = true) :
    Consumes pre (expect kind) fun t => t.Lexed ∧ t.kind = kind := by
  have hstep : ∀ {t : Token} (more : List Token), expect kind (t :: more) =
      if t.kind = kind then .ok t more else unexpected [kind] (t :: more) := by
    intro t more
    by_cases ht : t.kind = kind
    · simp [expect, peek, peekAt, accept, bind, EStateM.bind, pure, EStateM.pure, ht]
    · simp [expect, peek, peekAt, accept, unexpected, bind, EStateM.bind, ht]
  refine ⟨fun tokens hs h1 => ?_, fun tokens a rest hs _ hr => ?_⟩
  · obtain ⟨t, more, rfl, hl⟩ := hs.cons_of
    rw [hstep]
    split
    · rename_i ht
      exact ⟨⟨hl, ht⟩, .cons (Token.Takeable.of_kind ht hk) more⟩
    · exact yields_unexpected [kind] hs h1
  · obtain ⟨t, more, rfl, -⟩ := hs.cons_of
    rw [hstep] at hr
    split at hr
    · obtain ⟨-, rfl⟩ := (EStateM.Result.ok.injEq ..).mp hr
      exact Nat.lt_succ_self _
    · simp [unexpected] at hr

theorem yields_expect (kind : TokenKind)
    (hk : kind.isTakeable = true) :
    Yields pre (expect kind) fun t => t.Lexed ∧ t.kind = kind := (consumes_expect kind hk).yields

-- An item only has to do so where the test says to go on.
theorem yields_repeatUntil_of {stop : Parser Bool} {item : Parser α} {ahead : List Token → Prop}
    (hs : Yields Anywhere stop fun _ => True)
    (hgo : ∀ tokens rest, stop tokens = .ok false rest → ahead rest) (hi : Yields ahead item Q) :
    Yields pre (repeatUntil stop item) fun as => ∀ a ∈ as, Q a := by
  intro tokens ht h1
  clear h1
  fun_induction repeatUntil stop item tokens with
  | case1 tokens e rest hstop => exact hs.error ht trivial hstop
  | case2 tokens rest hstop => exact ⟨by simp, (hs.ok ht trivial hstop).2⟩
  | case3 tokens middle hstop e rest hitem =>
      have hm := (hs.ok ht trivial hstop).2
      obtain ⟨he, hrest⟩ := hi.error (ht.leaves hm) (hgo _ _ hstop) hitem
      exact ⟨he, hm.trans hrest⟩
  | case4 tokens middle hstop a left hitem hl e rest hr ih =>
      have hm := (hs.ok ht trivial hstop).2
      have hleft := hm.trans (hi.ok (ht.leaves hm) (hgo _ _ hstop) hitem).2
      have ho := ih (ht.leaves hleft)
      rw [hr] at ho
      exact ⟨ho.1, hleft.trans ho.2⟩
  | case5 tokens middle hstop a left hitem hl as rest hr ih =>
      have hm := (hs.ok ht trivial hstop).2
      obtain ⟨ha, hleft⟩ := hi.ok (ht.leaves hm) (hgo _ _ hstop) hitem
      have ho := ih (ht.leaves (hm.trans hleft))
      rw [hr] at ho
      exact ⟨List.forall_mem_cons.mpr ⟨ha, ho.1⟩, (hm.trans hleft).trans ho.2⟩
  | case6 tokens middle hstop a left hitem hl =>
      have hm := (hs.ok ht trivial hstop).2
      obtain ⟨ha, hleft⟩ := hi.ok (ht.leaves hm) (hgo _ _ hstop) hitem
      exact ⟨by simpa using ha, hm.trans hleft⟩

theorem yields_repeatUntil {stop : Parser Bool} {item : Parser α}
    (hs : Yields Anywhere stop fun _ => True) (hi : Yields Anywhere item Q) :
    Yields pre (repeatUntil stop item) fun as => ∀ a ∈ as, Q a :=
  yields_repeatUntil_of hs (fun _ _ _ => trivial) hi

-- Items that take tokens go on until the test says to stop.
theorem repeatUntil_stops {stop : Parser Bool} {item : Parser α} {as : List α}
    (hs : Yields Anywhere stop fun _ => True) (hi : Consumes Anywhere item Q) (ht : Stream tokens)
    (h : repeatUntil stop item tokens = .ok as rest) :
    ∃ middle, Leaves tokens middle ∧ stop middle = .ok true rest := by
  fun_induction repeatUntil stop item tokens generalizing as rest with
  | case1 => simp at h
  | case2 tokens rest hstop =>
      obtain ⟨-, rfl⟩ := (EStateM.Result.ok.injEq ..).mp h
      exact ⟨tokens, .refl tokens, hstop⟩
  | case3 => simp at h
  | case4 => simp at h
  | case5 tokens middle hstop a left hitem hl as' last hr ih =>
      obtain ⟨-, rfl⟩ := (EStateM.Result.ok.injEq ..).mp h
      have hm := (hs.ok ht trivial hstop).2
      have hleft := hm.trans (hi.yields.ok (ht.leaves hm) trivial hitem).2
      obtain ⟨final, hfinal, hstopped⟩ := ih (ht.leaves hleft) hr
      exact ⟨final, hleft.trans hfinal, hstopped⟩
  | case6 tokens middle hstop a left hitem hl =>
      have hm := (hs.ok ht trivial hstop).2
      have hlt := hi.shorter (ht.leaves hm) trivial hitem
      exact absurd (Nat.lt_of_lt_of_le hlt hm.length_le) hl

-- A list that parses has a first item.
def Items (Q : α → Prop) (as : List α) : Prop := as ≠ [] ∧ ∀ a ∈ as, Q a

theorem Items.cons {a : α} {as : List α} (ha : Q a) (has : ∀ a ∈ as, Q a) :
    Items Q (a :: as) := ⟨by simp, by simpa [ha] using has⟩

theorem yields_separated (separator : TokenKind) (hk : separator.isTakeable = true)
    (hi : ∀ pre, Yields pre p Q) : Yields pre (separated separator p) (Items Q) :=
  (hi pre).bind fun _ ha => .bind
    (yields_repeatUntil (.bind (yields_accept separator hk) fun _ _ => .pure trivial) (hi _))
    fun _ has => .pure (.cons ha has)

theorem Consumes.separated {separator : TokenKind} (hk : separator.isTakeable = true)
    (hi : ∀ pre, Consumes pre p Q) : Consumes pre (separated separator p) (Items Q) :=
  (hi pre).bind fun _ ha => .bind
    (yields_repeatUntil (.bind (yields_accept separator hk) fun _ _ => .pure trivial) (hi _).yields)
    fun _ has => .pure (.cons ha has)

theorem yields_closes (close : TokenKind) (expected : List TokenKind)
    (hk : close.isTakeable = true) : Yields pre (closes close expected) fun _ => True := by
  refine .bind (yields_accept close hk) fun done _ => .ite (fun _ => .pure trivial) fun _ => ?_
  refine .bind (yields_accept .comma rfl) fun more _ => ?_
  refine .ite (fun _ => yields_accept close hk) fun _ => ?_
  exact yields_unexpected_bind _

theorem yields_items (close : TokenKind) (expected : List TokenKind)
    (hk : close.isTakeable = true) (hi : ∀ pre, Yields pre p Q) :
    Yields pre (items close expected p) (Items Q) :=
  (hi pre).bind fun _ ha => .bind (yields_repeatUntil (yields_closes close expected hk) (hi _))
    fun _ has => .pure (.cons ha has)

theorem yields_itemsOrNone (close : TokenKind) (expected : List TokenKind)
    (hk : close.isTakeable = true) (hi : ∀ pre, Yields pre p Q) :
    Yields pre (itemsOrNone close expected p) fun as => ∀ a ∈ as, Q a := by
  refine .bind (yields_accept close hk) fun none _ => .ite (fun _ => .pure (by simp)) fun _ => ?_
  exact (yields_items close expected hk hi).mono fun _ h => h.2

end

theorem dottedRest_spec (tokens : List Token) (ht : ∀ t ∈ tokens, t.Lexed) :
    Leaves tokens (dottedRest tokens).2 ∧
      ((dottedRest tokens).1 = [] ∨
        ∃ more, (dottedRest tokens).1 = '.' :: more ∧ DottedName more) := by
  fun_induction dottedRest tokens with
  | case1 dot name rest hk text after hr ih =>
      rw [hr] at ih
      obtain ⟨hs, hd⟩ := ih fun t hm => ht t (by simp [hm])
      have hn : Identifier name.text := ht name (by simp) hk.2
      have htaken : Leaves (dot :: name :: rest) rest :=
        (Leaves.cons (Token.Takeable.of_kind hk.1 rfl) _).trans
          (.cons (Token.Takeable.of_kind hk.2 rfl) _)
      refine ⟨htaken.trans hs, .inr ⟨name.text ++ text, by simp, ?_⟩⟩
      rcases hd with rfl | ⟨more, rfl, hm⟩
      · simpa using DottedName.single hn
      · exact .cons hn hm
  | case2 dot name rest hk => exact ⟨.refl _, .inl rfl⟩
  | case3 tokens hne => exact ⟨.refl _, .inl rfl⟩

theorem consumes_dottedName {pre : List Token → Prop} : Consumes pre dottedName DottedName := by
  refine .bind (consumes_expect .ident rfl) fun name hn => ?_
  refine .bind (Q := fun text => text = [] ∨ ∃ more, text = '.' :: more ∧ DottedName more)
    (fun tokens hs _ => ?_) fun text htext => .pure ?_
  · exact (dottedRest_spec tokens hs.lexed).symm
  · rcases htext with rfl | ⟨more, rfl, hm⟩
    · simpa using DottedName.single (hn.1 hn.2)
    · exact .cons (hn.1 hn.2) hm

theorem yields_dottedName {pre : List Token → Prop} : Yields pre dottedName DottedName :=
  consumes_dottedName.yields

end Parser

end TypeStub
