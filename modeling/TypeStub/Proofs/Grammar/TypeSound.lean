import TypeStub.Proofs.Grammar.TypeGrammar
import TypeStub.Proofs.Grammar.Yields

namespace TypeStub

namespace Parser

section

variable {α : Type} {kind : TokenKind} {tokens rest : List Token}

theorem head_of_kind (h : (tokens.headD Token.stop).kind = kind) (hk : kind ≠ .endOfFile) :
    ∃ t more, tokens = t :: more ∧ t.kind = kind := by
  cases tokens with
  | nil => exact absurd h.symm hk
  | cons t more => exact ⟨t, more, rfl, h⟩

variable {β : Type} {b : β}

theorem accept_bind_ok {f : Bool → Parser β} (h : (accept kind >>= f) tokens = .ok b rest) :
    (∃ t middle, t.kind = kind ∧ tokens = t :: middle ∧ f true middle = .ok b rest) ∨
      f false tokens = .ok b rest := by
  obtain ⟨taken, middle, haccept, hafter⟩ := bind_ok h
  cases tokens with
  | nil =>
      obtain ⟨rfl, rfl⟩ := (EStateM.Result.ok.injEq ..).mp haccept
      exact .inr hafter
  | cons t more =>
      simp only [accept] at haccept
      split at haccept
      · rename_i hk
        obtain ⟨rfl, rfl⟩ := (EStateM.Result.ok.injEq ..).mp haccept
        exact .inl ⟨t, more, hk, rfl, hafter⟩
      · obtain ⟨rfl, rfl⟩ := (EStateM.Result.ok.injEq ..).mp haccept
        exact .inr hafter

theorem peek_bind_ok {f : Token → Parser β} (h : (peek >>= f) tokens = .ok b rest) :
    ∃ p, p = f (tokens.headD Token.stop) ∧ p tokens = .ok b rest := by
  obtain ⟨t, middle, hpeek, hafter⟩ := bind_ok h
  obtain ⟨rfl, rfl⟩ := (EStateM.Result.ok.injEq ..).mp hpeek
  refine ⟨_, rfl, ?_⟩
  cases tokens <;> exact hafter

theorem unexpected_ne_ok {expected : List TokenKind} : unexpected expected tokens ≠ .ok b rest := by
  simp [unexpected]

theorem expect_bind_ok {f : Token → Parser β} (h : (expect kind >>= f) tokens = .ok b rest) :
    ∃ t middle, t.kind = kind ∧ tokens = t :: middle ∧ f t middle = .ok b rest := by
  obtain ⟨t, middle, hexpect, hafter⟩ := bind_ok h
  obtain ⟨_, rfl, haccept⟩ := peek_bind_ok hexpect
  obtain ⟨t', middle', hk, rfl, hpure⟩ | hfail := accept_bind_ok haccept
  · obtain ⟨rfl, rfl⟩ := (EStateM.Result.ok.injEq ..).mp hpure
    exact ⟨_, _, hk, rfl, hafter⟩
  · exact absurd hfail unexpected_ne_ok

end

-- A parser takes nothing but what the relation derives.
def Sound {α : Type} (p : Parser α) (R : List Token → α → Prop) : Prop :=
  ∀ ⦃tokens : List Token⦄ ⦃a : α⦄ ⦃rest : List Token⦄, p tokens = .ok a rest →
    ∃ span, tokens = span ++ rest ∧ R span a

-- Items, each after a lead, up to an end.
inductive Repeated {α : Type} (L : List Token → Prop) (R : List Token → α → Prop)
    (E : List Token → Prop) : List Token → List α → Prop
  | nil {final : List Token} : E final → Repeated L R E final []
  | cons {lead span after : List Token} {a : α} {as : List α} : L lead → R span a →
      Repeated L R E after as → Repeated L R E (lead ++ (span ++ after)) (a :: as)

section

variable {α : Type} {p item : Parser α} {R : List Token → α → Prop} {stop : Parser Bool}
  {L E : List Token → Prop}

theorem Sound.repeatUntil (hitem : Sound item R)
    (hlead : ∀ tokens rest, stop tokens = .ok false rest → ∃ lead, tokens = lead ++ rest ∧ L lead)
    (hend : ∀ tokens rest, stop tokens = .ok true rest → ∃ final, tokens = final ++ rest ∧ E final)
    (hne : ∀ lead, L lead → lead ≠ []) : Sound (repeatUntil stop item) (Repeated L R E) := by
  intro tokens as rest h
  induction hn : tokens.length using Nat.strongRecOn generalizing tokens as with
  | ind n ih =>
      rw [Parser.repeatUntil] at h
      split at h
      · simp at h
      · rename_i middle hstop
        obtain ⟨rfl, rfl⟩ := (EStateM.Result.ok.injEq ..).mp h
        obtain ⟨final, rfl, hfinal⟩ := hend _ _ hstop
        exact ⟨final, rfl, .nil hfinal⟩
      · rename_i middle hstop
        obtain ⟨lead, rfl, hl⟩ := hlead _ _ hstop
        split at h
        · simp at h
        · rename_i a after hread
          obtain ⟨span, rfl, hspan⟩ := hitem hread
          have hpos := List.length_pos_iff.mpr (hne lead hl)
          have hshorter : after.length < (lead ++ (span ++ after)).length := by
            simp only [List.length_append]
            omega
          rw [if_pos hshorter] at h
          split at h
          · simp at h
          · rename_i more last hmore
            obtain ⟨rfl, rfl⟩ := (EStateM.Result.ok.injEq ..).mp h
            obtain ⟨others, rfl, hothers⟩ := ih _ (hn ▸ hshorter) hmore rfl
            exact ⟨lead ++ (span ++ others), by simp, .cons hl hspan hothers⟩

end

section

open Grammar

variable {α : Type} {item : Parser α} {R : List Token → α → Prop} {kind close : TokenKind}

-- One token of a kind.
def IsToken (kind : TokenKind) (span : List Token) : Prop := ∃ t : Token, t.kind = kind ∧ span = [t]

theorem IsToken.ne_nil {span : List Token} (h : IsToken kind span) : span ≠ [] := by
  obtain ⟨t, -, rfl⟩ := h
  exact List.cons_ne_nil t []

theorem sequenced_of_repeated {first span : List Token} {a : α} {as : List α} (ha : R first a)
    (h : Repeated (IsToken kind) R (· = []) span as) : Sequenced kind R (first ++ span) (a :: as) := by
  induction h generalizing first a with
  | nil hfinal =>
      rw [hfinal, List.append_nil]
      exact .one ha
  | cons hlead hspan _ ih =>
      obtain ⟨t, ht, rfl⟩ := hlead
      exact .more ha ht (ih hspan)

-- The test of a sequence goes on after a separator and takes nothing else.
theorem separator_stop {b : Bool} {tokens rest : List Token}
    (h : (do return !(← accept kind) : Parser Bool) tokens = .ok b rest) :
    (b = false ∧ ∃ lead, tokens = lead ++ rest ∧ IsToken kind lead) ∨
      (b = true ∧ tokens = rest) := by
  obtain ⟨t, middle, ht, rfl, hpure⟩ | hpure := accept_bind_ok h
  · obtain ⟨rfl, rfl⟩ := (EStateM.Result.ok.injEq ..).mp hpure
    exact .inl ⟨rfl, [t], rfl, t, ht, rfl⟩
  · obtain ⟨rfl, rfl⟩ := (EStateM.Result.ok.injEq ..).mp hpure
    exact .inr ⟨rfl, rfl⟩

theorem Sound.separated (hitem : Sound item R) :
    Sound (Parser.separated kind item) (Sequenced kind R) := by
  intro tokens as rest h
  obtain ⟨a, middle, hfirst, h⟩ := bind_ok h
  obtain ⟨more, last, hmore, h⟩ := bind_ok h
  obtain ⟨rfl, rfl⟩ := (EStateM.Result.ok.injEq ..).mp h
  obtain ⟨span, rfl, hspan⟩ := hitem hfirst
  have hrepeat : Sound (Parser.repeatUntil (do return !(← accept kind)) item)
      (Repeated (IsToken kind) R (· = [])) := by
    refine .repeatUntil hitem (fun tokens rest hstop => ?_) (fun tokens rest hstop => ?_)
      fun _ => IsToken.ne_nil
    · obtain ⟨-, hlead⟩ | ⟨hb, -⟩ := separator_stop hstop
      · exact hlead
      · exact absurd hb (by simp)
    · obtain ⟨hb, -⟩ | ⟨-, rfl⟩ := separator_stop hstop
      · exact absurd hb (by simp)
      · exact ⟨[], rfl, rfl⟩
  obtain ⟨after, rfl, hafter⟩ := hrepeat hmore
  exact ⟨span ++ after, by simp, sequenced_of_repeated hspan hafter⟩

-- The end of a list: maybe a comma, then the closing token.
def IsClosing (close : TokenKind) (span : List Token) : Prop :=
  ∃ (tail : List Token) (t : Token), span = tail ++ [t] ∧ MaybeComma tail ∧ t.kind = close

theorem closed_of_repeated {first span : List Token} {a : α} {as : List α} (ha : R first a)
    (h : Repeated (IsToken .comma) R (IsClosing close) span as) :
    Closed close (Listed R) (first ++ span) (a :: as) := by
  induction h generalizing first a with
  | nil hfinal =>
      obtain ⟨tail, t, rfl, htail, ht⟩ := hfinal
      exact ⟨first ++ tail, t, by simp, ⟨first, tail, rfl, .one ha, htail⟩, ht⟩
  | cons hlead hspan _ ih =>
      obtain ⟨comma, hcomma, rfl⟩ := hlead
      obtain ⟨body, t, heq, ⟨items, tail, rfl, hitems, htail⟩, ht⟩ := ih hspan
      refine ⟨first ++ comma :: items ++ tail, t, ?_, ⟨first ++ comma :: items, tail, rfl,
        .more ha hcomma hitems, htail⟩, ht⟩
      rw [heq]
      simp

theorem closes_stop {b : Bool} {expected : List TokenKind} {tokens rest : List Token}
    (h : closes close expected tokens = .ok b rest) :
    (b = false ∧ ∃ lead, tokens = lead ++ rest ∧ IsToken .comma lead) ∨
      (b = true ∧ ∃ final, tokens = final ++ rest ∧ IsClosing close final) := by
  obtain ⟨t, middle, ht, rfl, hpure⟩ | hcomma := accept_bind_ok h
  · obtain ⟨rfl, rfl⟩ := (EStateM.Result.ok.injEq ..).mp hpure
    exact .inr ⟨rfl, [t], rfl, [], t, rfl, .inl rfl, ht⟩
  · obtain ⟨comma, middle, hc, rfl, hclose⟩ | hfail := accept_bind_ok hcomma
    · -- The comma is the last one when the closing token follows.
      have hlast : (accept close >>= Pure.pure) middle = .ok b rest := by rwa [bind_pure]
      obtain ⟨t, after, ht, rfl, hpure⟩ | hpure := accept_bind_ok hlast
      · obtain ⟨rfl, rfl⟩ := (EStateM.Result.ok.injEq ..).mp hpure
        exact .inr ⟨rfl, [comma, t], rfl, [comma], t, rfl, .inr ⟨comma, hc, rfl⟩, ht⟩
      · obtain ⟨rfl, rfl⟩ := (EStateM.Result.ok.injEq ..).mp hpure
        exact .inl ⟨rfl, [comma], rfl, comma, hc, rfl⟩
    · obtain ⟨_, _, hunexpected, -⟩ := bind_ok hfail
      exact absurd hunexpected unexpected_ne_ok

theorem Sound.items {expected : List TokenKind} (hitem : Sound item R) :
    Sound (Parser.items close expected item) (Closed close (Listed R)) := by
  intro tokens as rest h
  obtain ⟨a, middle, hfirst, h⟩ := bind_ok h
  obtain ⟨more, last, hmore, h⟩ := bind_ok h
  obtain ⟨rfl, rfl⟩ := (EStateM.Result.ok.injEq ..).mp h
  obtain ⟨span, rfl, hspan⟩ := hitem hfirst
  have hrepeat : Sound (Parser.repeatUntil (closes close expected) item)
      (Repeated (IsToken .comma) R (IsClosing close)) := by
    refine .repeatUntil hitem (fun tokens rest hstop => ?_) (fun tokens rest hstop => ?_)
      fun _ => IsToken.ne_nil
    · obtain ⟨-, hlead⟩ | ⟨hb, -⟩ := closes_stop hstop
      · exact hlead
      · exact absurd hb (by simp)
    · obtain ⟨hb, -⟩ | ⟨-, hfinal⟩ := closes_stop hstop
      · exact absurd hb (by simp)
      · exact hfinal
  obtain ⟨after, rfl, hafter⟩ := hrepeat hmore
  exact ⟨span ++ after, by simp, closed_of_repeated hspan hafter⟩

theorem Sound.itemsOrNone {expected : List TokenKind} (hitem : Sound item R) :
    Sound (Parser.itemsOrNone close expected item) (Closed close (ListedOrNone R)) := by
  intro tokens as rest h
  obtain ⟨t, middle, ht, rfl, hpure⟩ | hsome := accept_bind_ok h
  · obtain ⟨rfl, rfl⟩ := (EStateM.Result.ok.injEq ..).mp hpure
    exact ⟨[t], rfl, [], t, rfl, .inl ⟨rfl, rfl⟩, ht⟩
  · have hitems : Sound (Parser.items close expected item) (Closed close (Listed R)) := .items hitem
    obtain ⟨span, rfl, body, t, rfl, hlisted, ht⟩ := hitems hsome
    exact ⟨_, rfl, body, t, rfl, .inr hlisted, ht⟩

-- Dots and names after a first name.
theorem dottedRest_sound {tokens rest : List Token} {text : Text}
    (h : dottedRest tokens = (text, rest)) {first : Token} (hf : first.kind = .ident) :
    ∃ span, tokens = span ++ rest ∧ IsDotted (first :: span) (first.text ++ text) := by
  have hname : IsName [first] first.text := ⟨first, hf, rfl, rfl⟩
  have halone : IsDotted [first] (first.text ++ []) :=
    ⟨[first.text], .one hname, by rw [List.append_nil, Text.joinWith_singleton]⟩
  fun_induction dottedRest tokens generalizing text first with
  | case1 dot name others hk more after hinner ih =>
      obtain ⟨rfl, rfl⟩ := Prod.mk.inj h
      obtain ⟨hdot, hident⟩ := hk
      obtain ⟨span, rfl, names, hnames, htext⟩ := ih hinner hident ⟨name, hident, rfl, rfl⟩
        ⟨[name.text], .one ⟨name, hident, rfl, rfl⟩, by
          rw [List.append_nil, Text.joinWith_singleton]⟩
      refine ⟨dot :: name :: span, rfl, first.text :: names, .more hname hdot hnames, ?_⟩
      obtain ⟨next, others, rfl⟩ := List.exists_cons_of_ne_nil hnames.ne_nil
      rw [Text.joinWith_cons, ← htext]
      simp
  | case2 dot name others hk =>
      obtain ⟨rfl, rfl⟩ := Prod.mk.inj h
      exact ⟨[], rfl, halone⟩
  | case3 =>
      obtain ⟨rfl, rfl⟩ := Prod.mk.inj h
      exact ⟨[], rfl, halone⟩

theorem sound_dottedName : Sound dottedName IsDotted := by
  intro tokens text rest h
  obtain ⟨first, middle, hfirst, rfl, hmore⟩ := expect_bind_ok h
  obtain ⟨more, last, hrest, hpure⟩ := bind_ok hmore
  obtain ⟨rfl, rfl⟩ := (EStateM.Result.ok.injEq ..).mp hpure
  obtain ⟨rfl, rfl⟩ := (EStateM.Result.ok.injEq ..).mp hrest
  have hsplit : dottedRest middle = ((dottedRest middle).1, (dottedRest middle).2) := rfl
  obtain ⟨span, hspan, hdotted⟩ := dottedRest_sound hsplit hfirst
  exact ⟨first :: span, by rw [List.cons_append, ← hspan], hdotted⟩

end

end Parser

namespace Grammar

open TypeStub.Parser

variable {T : List Token → Expr → Prop} {type : Parser Expr}

theorem accept_comma_ok {β : Type} {q : Parser β} {tokens rest : List Token} {b : β}
    (h : (accept .comma >>= fun _ => q) tokens = .ok b rest) :
    ∃ tail middle, MaybeComma tail ∧ tokens = tail ++ middle ∧ q middle = .ok b rest := by
  obtain ⟨t, middle, ht, rfl, hq⟩ | hq := accept_bind_ok h
  · exact ⟨[t], middle, .inr ⟨t, ht, rfl⟩, rfl, hq⟩
  · exact ⟨[], tokens, .inl rfl, rfl, hq⟩

theorem fieldName_bind_ok {β : Type} {f : Text → Parser β} {tokens rest : List Token} {b : β}
    (h : (fieldName >>= f) tokens = .ok b rest) :
    ∃ t text middle, IsFieldName t text ∧ tokens = t :: middle ∧ f text middle = .ok b rest := by
  obtain ⟨text, middle, hname, hafter⟩ := bind_ok h
  obtain ⟨p, hp, hkind⟩ := peek_bind_ok hname
  split at hp
  · rename_i hident
    subst hp
    obtain ⟨t, more, rfl, ht⟩ := head_of_kind hident (by simp)
    obtain ⟨rfl, rfl⟩ := (EStateM.Result.ok.injEq ..).mp hkind
    exact ⟨t, _, _, .inl ⟨ht, rfl⟩, rfl, hafter⟩
  · rename_i hstring
    subst hp
    obtain ⟨t, more, rfl, ht⟩ := head_of_kind hstring (by simp)
    obtain ⟨rfl, rfl⟩ := (EStateM.Result.ok.injEq ..).mp hkind
    exact ⟨t, _, _, .inr ⟨ht, rfl⟩, rfl, hafter⟩
  · subst hp
    exact absurd hkind unexpected_ne_ok

theorem sound_recordField (htype : Sound type T) : Sound (recordField type) (IsField T) := by
  intro tokens field rest h
  obtain ⟨left, middle, hleft, rfl, h1⟩ := expect_bind_ok h
  obtain ⟨name, text, middle, hname, rfl, h2⟩ := fieldName_bind_ok h1
  obtain ⟨comma, middle, hcomma, rfl, h3⟩ := expect_bind_ok h2
  obtain ⟨e, middle, htypeRun, h4⟩ := bind_ok h3
  obtain ⟨span, rfl, hspan⟩ := htype htypeRun
  obtain ⟨tail, middle, htail, rfl, h5⟩ := accept_comma_ok h4
  obtain ⟨right, middle, hright, rfl, hpure⟩ := expect_bind_ok h5
  obtain ⟨rfl, rfl⟩ := (EStateM.Result.ok.injEq ..).mp hpure
  refine ⟨left :: name :: comma :: span ++ tail ++ [right], by simp, ?_⟩
  exact ⟨left, name, comma, right, span, tail, hleft, hname, hcomma, hspan, htail, hright, rfl⟩

-- A record, after its opening word and parenthesis.
theorem record_ok {word left : Token} {more rest : List Token} {e : Expr} (htype : Sound type T)
    (hword : word.kind = .ident) (hnamed : word.text = "NamedTuple") (hleft : left.kind = .leftParen)
    (h : record type (word :: left :: more) = .ok e rest) :
    ∃ span, word :: left :: more = span ++ rest ∧ IsAtom T span e := by
  have h0 : (fieldName >>= _) more = .ok e rest := h
  obtain ⟨name, text, middle, hname, rfl, h1⟩ := fieldName_bind_ok h0
  obtain ⟨comma, middle, hcomma, rfl, h2⟩ := expect_bind_ok h1
  obtain ⟨bracket, middle, hbracket, rfl, h3⟩ := expect_bind_ok h2
  obtain ⟨fields, middle, hfields, h4⟩ := bind_ok h3
  have hitems : Sound (itemsOrNone .rightBracket [.rightBracket] (recordField type))
      (Closed .rightBracket (ListedOrNone (IsField T))) := .itemsOrNone (sound_recordField htype)
  obtain ⟨span, rfl, body, closing, rfl, hlisted, hclosing⟩ := hitems hfields
  obtain ⟨tail, middle, htail, rfl, h5⟩ := accept_comma_ok h4
  obtain ⟨right, middle, hright, rfl, hpure⟩ := expect_bind_ok h5
  obtain ⟨rfl, rfl⟩ := (EStateM.Result.ok.injEq ..).mp hpure
  refine ⟨word :: left :: name :: comma :: bracket :: body ++ closing :: tail ++ [right], by simp, ?_⟩
  exact .record hword hnamed hleft hname hcomma hbracket hlisted hclosing htail hright

theorem sound_typeItems (htype : Sound type T) :
    Sound (typeItems type) (Closed .rightBracket (Listed T)) := .items htype

-- A list, after its opening bracket.
theorem list_ok {left : Token} {more rest : List Token} {e : Expr} (htype : Sound type T)
    (hleft : left.kind = .leftBracket)
    (h : (do
      if ← accept .rightBracket then return .list []
      return .list (← typeItems type) : Parser Expr) more = .ok e rest) :
    ∃ span, left :: more = span ++ rest ∧ IsAtom T span e := by
  obtain ⟨right, middle, hright, rfl, hpure⟩ | hitems := accept_bind_ok h
  · obtain ⟨rfl, rfl⟩ := (EStateM.Result.ok.injEq ..).mp hpure
    exact ⟨[left, right], rfl, .emptyList hleft hright⟩
  · have h1 : (typeItems type >>= _) more = .ok e rest := hitems
    obtain ⟨es, middle, hes, hpure⟩ := bind_ok h1
    obtain ⟨rfl, rfl⟩ := (EStateM.Result.ok.injEq ..).mp hpure
    obtain ⟨span, rfl, body, right, rfl, hlisted, hright⟩ := sound_typeItems htype hes
    exact ⟨left :: body ++ [right], by simp, .list hleft hlisted hright⟩

-- A dotted name and, after a bracket, its arguments.
theorem named_ok {tokens rest : List Token} {e : Expr} (htype : Sound type T)
    (h : (do
      let name ← dottedName
      if ← accept .leftBracket then return .subscript (.name name) (← typeItems type)
      return .name name : Parser Expr) tokens = .ok e rest) :
    ∃ span, tokens = span ++ rest ∧ IsAtom T span e := by
  obtain ⟨text, middle, hname, h1⟩ := bind_ok h
  obtain ⟨name, rfl, hdotted⟩ := sound_dottedName hname
  obtain ⟨left, after, hleft, rfl, h2⟩ | hpure := accept_bind_ok h1
  · have h3 : (typeItems type >>= _) after = .ok e rest := h2
    obtain ⟨es, middle, hes, hpure⟩ := bind_ok h3
    obtain ⟨rfl, rfl⟩ := (EStateM.Result.ok.injEq ..).mp hpure
    obtain ⟨span, rfl, body, right, rfl, hlisted, hright⟩ := sound_typeItems htype hes
    exact ⟨name ++ left :: body ++ [right], by simp, .subscript hdotted hleft hlisted hright⟩
  · obtain ⟨rfl, rfl⟩ := (EStateM.Result.ok.injEq ..).mp hpure
    exact ⟨name, rfl, .name hdotted⟩

theorem sound_typeAtom (htype : Sound type T) : Sound (typeAtom type) (IsAtom T) := by
  intro tokens e rest h
  obtain ⟨p, hp, hkind⟩ := peek_bind_ok h
  split at hp
  · rename_i hquestion
    subst hp
    obtain ⟨t, more, rfl, ht⟩ := head_of_kind hquestion (by simp)
    obtain ⟨rfl, rfl⟩ := (EStateM.Result.ok.injEq ..).mp hkind
    exact ⟨[t], rfl, .question ht⟩
  · rename_i hellipsis
    subst hp
    obtain ⟨t, more, rfl, ht⟩ := head_of_kind hellipsis (by simp)
    obtain ⟨rfl, rfl⟩ := (EStateM.Result.ok.injEq ..).mp hkind
    exact ⟨[t], rfl, .ellipsis ht⟩
  · rename_i hparen
    subst hp
    obtain ⟨left, more, rfl, hleft⟩ := head_of_kind hparen (by simp)
    have h1 : (type >>= _) more = .ok e rest := hkind
    obtain ⟨inner, middle, hinner, h2⟩ := bind_ok h1
    obtain ⟨span, rfl, hspan⟩ := htype hinner
    obtain ⟨right, middle, hright, rfl, hpure⟩ := expect_bind_ok h2
    obtain ⟨rfl, rfl⟩ := (EStateM.Result.ok.injEq ..).mp hpure
    exact ⟨left :: span ++ [right], by simp, .parenthesized hleft hspan hright⟩
  · rename_i hbracket
    subst hp
    obtain ⟨left, more, rfl, hleft⟩ := head_of_kind hbracket (by simp)
    exact list_ok htype hleft hkind
  · rename_i hident
    subst hp
    obtain ⟨word, more, rfl, hword⟩ := head_of_kind hident (by simp)
    obtain ⟨second, middle, hpeek, hbranch⟩ := bind_ok hkind
    obtain ⟨rfl, rfl⟩ := (EStateM.Result.ok.injEq ..).mp hpeek
    have hsecond : (word :: more).getD 1 Token.stop = more.headD Token.stop := by
      cases more <;> rfl
    rw [hsecond, List.headD_cons] at hbranch
    by_cases hrecord : word.text = "NamedTuple" ∧ (more.headD Token.stop).kind = .leftParen
    · rw [if_pos hrecord] at hbranch
      obtain ⟨left, more, rfl, hleft⟩ := head_of_kind hrecord.2 (by simp)
      exact record_ok htype hword hrecord.1 hleft hbranch
    · rw [if_neg hrecord] at hbranch
      exact named_ok htype hbranch
  · subst hp
    exact absurd hkind unexpected_ne_ok

-- A type that the parser gives has a derivation within its budget.
theorem sound_typeExpr (budget : Nat) : Sound (typeExpr budget) (IsType budget) := by
  induction budget with
  | zero =>
      intro tokens e rest h
      simp [typeExpr, tooDeep] at h
  | succ budget ih =>
      intro tokens e rest h
      obtain ⟨operands, middle, hoperands, hpure⟩ := bind_ok h
      obtain ⟨rfl, rfl⟩ := (EStateM.Result.ok.injEq ..).mp hpure
      have hatoms : Sound (separated .kwOr (typeAtom (typeExpr budget)))
          (Sequenced .kwOr (IsAtom (IsType budget))) := .separated (sound_typeAtom ih)
      obtain ⟨span, rfl, hspan⟩ := hatoms hoperands
      refine ⟨span, rfl, ?_⟩
      cases hspan with
      | one hatom => exact .inl hatom
      | more hatom hor hrest =>
          obtain ⟨second, others, rfl⟩ := List.exists_cons_of_ne_nil hrest.ne_nil
          exact .inr ⟨_, by simp, .more hatom hor hrest, rfl⟩

end Grammar

end TypeStub
