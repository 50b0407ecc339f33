import TypeStub.Proofs.Grammar.Alongside

-- Two sources that are the same but for some statements, as the parser goes over their lines.
namespace TypeStub

-- The blocks that are open somewhere: for each, the innermost first, whether a definition opened
-- it, whether the line before the place is that of a definition, and whether a line starts there.
structure Blocks where
  heads : List Bool
  heading : Bool
  fresh : Bool

namespace Blocks

def step (b : Blocks) : TokenKind → Blocks
  | .newline => { b with fresh := true }
  | .indent => ⟨b.heading :: b.heads, b.heading, true⟩
  | .dedent => ⟨b.heads.tail, b.heading, true⟩
  | .error | .endOfFile => { b with fresh := true }
  | kind => if b.fresh then ⟨b.heads, kind == .kwDef, false⟩ else b

def after (b : Blocks) (tokens : List Token) : Blocks := tokens.foldl (fun b t => b.step t.kind) b

-- Whether the innermost block is the body of a definition.
def InDefinition (b : Blocks) : Prop := b.heads.head? = some true

section

variable {b : Blocks} {kind : TokenKind}

theorem step_first (hb : b.fresh = true) (hk : kind.isSourced = true) :
    b.step kind = ⟨b.heads, kind == .kwDef, false⟩ := by
  cases kind <;> simp_all [step, TokenKind.isSourced]

theorem step_inside (hb : b.fresh = false) (hk : kind.isSourced = true) : b.step kind = b := by
  cases kind <;> simp_all [step, TokenKind.isSourced]

end

end Blocks

namespace Parser

-- What closes so many blocks at the end of a source.
def Closes (count : Nat) (tokens : List Token) : Prop :=
  ∃ dedents e, tokens = dedents ++ [e] ∧ dedents.length = count ∧
    (∀ t ∈ dedents, t.kind = .dedent) ∧ e.kind = .endOfFile

-- Statements that start with a name.
def Named (S : List Token → Prop) : Prop :=
  ∀ ⦃s⦄, S s → ∃ t rest, s = t :: rest ∧ t.kind = .ident ∧ ∀ u ∈ s, u.Lexed

-- Tokens that are alike but for some statements, of one sort on the one side and of another on the
-- other. They stand where a statement may stand that is not one of a definition's body.
inductive Twin (ρ : Int32 → Int32 → Prop) (S T : List Token → Prop) :
    Blocks → List Token → List Token → Prop
  | last {b : Blocks} {ts us : List Token} : Stretch ρ .endOfFile ts us → (∀ t ∈ ts, t.Lexed) →
      Twin ρ S T b ts us
  | line {b : Blocks} {stop : TokenKind} {front back ts us : List Token} :
      Stretch ρ stop front back → (∀ t ∈ front, t.Lexed) →
      Twin ρ S T (b.after front) ts us → Twin ρ S T b (front ++ ts) (back ++ us)
  | site {b after : Blocks} {s r ts us : List Token} : S s → T r →
      (s.headD Token.stop).Alike ρ (r.headD Token.stop) → ¬ b.InDefinition →
      after.heads = b.heads → after.fresh = true → Twin ρ S T after ts us →
      Twin ρ S T b (s ++ ts) (r ++ us)
  | closing {b : Blocks} {s r ts us : List Token} : S s → T r →
      (s.headD Token.stop).Alike ρ (r.headD Token.stop) → ¬ b.InDefinition →
      Closes b.heads.length ts → Closes b.heads.length us → Twin ρ S T b (s ++ ts) (r ++ us)

section

variable {ρ : Int32 → Int32 → Prop} {S T : List Token → Prop} {stop : TokenKind} {b c : Blocks}
  {t u : Token} {front back ts us more others : List Token}

theorem lexed_of_alike (h : t.Alike ρ u) (ht : t.Lexed) : u.Lexed := by
  intro hk
  rw [← h.text]
  exact ht (h.kind.trans hk)

theorem Stretch.lexed (h : Stretch ρ stop front back) (hl : ∀ t ∈ front, t.Lexed) :
    ∀ u ∈ back, u.Lexed := by
  induction h with
  | last ht => simpa using lexed_of_alike ht (hl _ (by simp))
  | cons ht _ _ ih =>
      obtain ⟨hfirst, hrest⟩ := List.forall_mem_cons.mp hl
      exact List.forall_mem_cons.mpr ⟨lexed_of_alike ht hfirst, ih hrest⟩

theorem Stretch.ended (h : Stretch ρ stop front back) :
    (∃ body e, front = body ++ [e] ∧ e.kind = stop) ∧ ∃ body e, back = body ++ [e] ∧ e.kind = stop := by
  induction h with
  | @last t u ht hk => exact ⟨⟨[], t, rfl, hk⟩, [], u, rfl, ht.kind ▸ hk⟩
  | @cons t u _ _ _ _ _ ih =>
      obtain ⟨⟨body, e, rfl, he⟩, other, f, rfl, hf⟩ := ih
      exact ⟨⟨t :: body, e, rfl, he⟩, u :: other, f, rfl, hf⟩

theorem Stream.append (hl : ∀ t ∈ front, t.Lexed) (h : Stream ts) : Stream (front ++ ts) := by
  refine ⟨List.forall_mem_append.mpr ⟨hl, h.lexed⟩, ?_⟩
  obtain ⟨body, e, rfl, he⟩ := h.ended
  exact ⟨front ++ body, e, (List.append_assoc ..).symm, he⟩

theorem Closes.stream {count : Nat} (h : Closes count ts) : Stream ts := by
  obtain ⟨dedents, e, rfl, -, hdedents, he⟩ := h
  refine ⟨List.forall_mem_append.mpr ⟨fun t ht hk => ?_, ?_⟩, dedents, e, rfl, he⟩
  · rw [hdedents t ht] at hk
    cases hk
  · simp [Token.Lexed, he]

-- Both sides are what the grammar walks over.
theorem Twin.stream (hS : Named S) (hT : Named T) (h : Twin ρ S T b ts us) :
    Stream ts ∧ Stream us := by
  induction h with
  | last hstretch hl =>
      obtain ⟨hleft, hright⟩ := hstretch.ended
      exact ⟨⟨hl, hleft⟩, hstretch.lexed hl, hright⟩
  | line hstretch hl _ ih => exact ⟨ih.1.append hl, ih.2.append (hstretch.lexed hl)⟩
  | site hs hr _ _ _ _ _ ih =>
      obtain ⟨_, _, -, -, hleft⟩ := hS hs
      obtain ⟨_, _, -, -, hright⟩ := hT hr
      exact ⟨ih.1.append hleft, ih.2.append hright⟩
  | closing hs hr _ _ hts hus =>
      obtain ⟨_, _, -, -, hleft⟩ := hS hs
      obtain ⟨_, _, -, -, hright⟩ := hT hr
      exact ⟨hts.stream.append hleft, hus.stream.append hright⟩

-- Somewhere in a line, with the blocks that are open after the part of it that has been read.
def Poised (ρ : Int32 → Int32 → Prop) (S T : List Token → Prop) (c : Blocks) (ts us : List Token) :
    Prop :=
  ∃ stop more others, Within ρ stop more others ts us ∧
    (stop = .endOfFile ∨ Twin ρ S T (c.step stop) more others)

-- At the beginning of a line, where such blocks are open.
def Start (ρ : Int32 → Int32 → Prop) (S T : List Token → Prop) (heads : List Bool)
    (ts us : List Token) : Prop :=
  ∃ b : Blocks, b.fresh = true ∧ b.heads = heads ∧ Twin ρ S T b ts us

-- The same, or at the end of the file.
def Follows (ρ : Int32 → Int32 → Prop) (S T : List Token → Prop) (heads : List Bool)
    (ts us : List Token) : Prop :=
  Start ρ S T heads ts us ∨ Closes heads.length ts ∧ Closes heads.length us

theorem after_stretch (hc : c.fresh = false) (h : Stretch ρ stop front back) :
    c.after front = c.step stop := by
  induction h with
  | last _ hk => simp [Blocks.after, hk]
  | cons _ hb _ ih => rwa [Blocks.after, List.foldl_cons, Blocks.step_inside hc hb]

-- What a line starts with: a break, something else, or the name of one of the statements.
theorem Twin.start (hb : b.fresh = true) (h : Twin ρ S T b ts us) :
    (∃ t u more others, ts = t :: more ∧ us = u :: others ∧ t.Alike ρ u ∧ t.kind.isSourced = false ∧
      (t.kind = .endOfFile ∨ Twin ρ S T (b.step t.kind) more others)) ∨
    (∃ t more, ts = t :: more ∧ t.kind.isSourced = true ∧ Poised ρ S T (b.step t.kind) ts us) ∨
    (¬ b.InDefinition ∧ ∃ s r more others, S s ∧ T r ∧
      (s.headD Token.stop).Alike ρ (r.headD Token.stop) ∧ ts = s ++ more ∧ us = r ++ others ∧
      Follows ρ S T b.heads more others) := by
  cases h with
  | last hstretch hl =>
      cases hstretch with
      | last ht hk hbreak => exact .inl ⟨_, _, [], [], rfl, rfl, ht, hk ▸ hbreak, .inl hk⟩
      | @cons t u ts us ht hbreak hrest =>
          refine .inr (.inl ⟨t, ts, rfl, hbreak, .endOfFile, [], [], ?_, .inl rfl⟩)
          exact ⟨t :: ts, u :: us, .cons ht hbreak hrest, by simp, by simp⟩
  | @line b stop front back ts us hstretch hl hrest =>
      cases hstretch with
      | @last t u ht hk hbreak =>
          refine .inl ⟨t, u, ts, us, rfl, rfl, ht, hk ▸ hbreak, .inr ?_⟩
          simpa [Blocks.after] using hrest
      | @cons t u front back ht hbreak htail =>
          have hc : (b.step t.kind).fresh = false := by rw [Blocks.step_first hb hbreak]
          refine .inr (.inl ⟨t, front ++ ts, rfl, hbreak, stop, ts, us, ?_, .inr ?_⟩)
          · exact ⟨t :: front, u :: back, .cons ht hbreak htail, rfl, rfl⟩
          · rw [← after_stretch hc htail]
            exact hrest
  | @site b after s r ts us hs hr ht hout hheads hfresh hrest =>
      exact .inr (.inr ⟨hout, s, r, ts, us, hs, hr, ht, rfl, rfl, .inl ⟨after, hfresh, hheads, hrest⟩⟩)
  | @closing b s r ts us hs hr ht hout hts hus =>
      exact .inr (.inr ⟨hout, s, r, ts, us, hs, hr, ht, rfl, rfl, .inr ⟨hts, hus⟩⟩)

end

end Parser

end TypeStub
