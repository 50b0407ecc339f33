import Mathlib.Data.List.Forall2
import TypeStub.Grammar.Parser
import TypeStub.Proofs.Token.Spelling

namespace TypeStub

-- The first token of several, or what lies past the end.
def headSpelling (spellings : List Spelling) : Spelling := spellings.headD (sign .endOfFile)

@[simp] theorem headSpelling_cons (first : Spelling) (rest : List Spelling) :
    headSpelling (first :: rest) = first := rfl

theorem headSpelling_map (tokens : List Token) :
    headSpelling (tokens.map Token.spelling) = (tokens.headD Token.stop).spelling := by
  cases tokens <;> rfl

theorem headSpelling_append {spellings : List Spelling} {kind : TokenKind}
    (h : (headSpelling spellings).1 = kind) (hk : kind ≠ .endOfFile) (more : List Spelling) :
    (headSpelling (spellings ++ more)).1 = kind := by
  cases spellings with
  | nil => exact absurd h.symm hk
  | cons _ _ => exact h

namespace Parser

-- A parser that takes exactly the tokens that are so spelled, when what comes after them is of a
-- certain kind, and that gives such a result.
def Reads {α : Type} (p : Parser α) (spellings : List Spelling) (follow : List Spelling → Prop)
    (Q : α → Prop) : Prop :=
  ∀ tokens rest : List Token, tokens.map Token.spelling = spellings →
    follow (rest.map Token.spelling) → ∃ a, p (tokens ++ rest) = .ok a rest ∧ Q a

section

variable {α β : Type} {p : Parser α} {Q : α → Prop} {spellings more : List Spelling}
  {follow next : List Spelling → Prop} {kind : TokenKind}

theorem Reads.mono {R : α → Prop} (h : Reads p spellings follow Q) (hf : ∀ s, next s → follow s)
    (hw : ∀ a, Q a → R a) : Reads p spellings next R := by
  intro tokens rest ht hr
  obtain ⟨a, hp, ha⟩ := h tokens rest ht (hf _ hr)
  exact ⟨a, hp, hw a ha⟩

theorem Reads.pure {a : α} (h : Q a) : Reads (Pure.pure a) [] follow Q := by
  intro tokens rest ht _
  obtain rfl := List.map_eq_nil_iff.mp ht
  exact ⟨a, rfl, h⟩

theorem Reads.bind {f : α → Parser β} {R : β → Prop} (hp : Reads p spellings follow Q)
    (hf : ∀ a, Q a → Reads (f a) more next R) (hn : ∀ s, next s → follow (more ++ s)) :
    Reads (p >>= f) (spellings ++ more) next R := by
  intro tokens rest ht hr
  obtain ⟨first, second, rfl, hfirst, hsecond⟩ := List.map_eq_append_iff.mp ht
  have hfollow : follow ((second ++ rest).map Token.spelling) := by
    rw [List.map_append, hsecond]
    exact hn _ hr
  obtain ⟨a, hpa, ha⟩ := hp first (second ++ rest) hfirst hfollow
  obtain ⟨b, hfb, hb⟩ := hf a ha second rest hsecond hr
  refine ⟨b, ?_, hb⟩
  rw [List.append_assoc]
  simp only [Bind.bind, EStateM.bind, hpa]
  exact hfb

-- The last step only makes something of what was read.
theorem Reads.bindPure {f : α → β} {R : β → Prop} (hp : Reads p spellings follow Q)
    (hf : ∀ a, Q a → R (f a)) : Reads (p >>= fun a => Pure.pure (f a)) spellings follow R := by
  have h : Reads (p >>= fun a => Pure.pure (f a)) (spellings ++ []) follow R :=
    hp.bind (fun a ha => .pure (hf a ha)) fun _ hs => hs
  rwa [List.append_nil] at h

theorem Reads.map {f : α → β} {R : β → Prop} (hp : Reads p spellings follow Q)
    (hf : ∀ a, Q a → R (f a)) : Reads (f <$> p) spellings follow R := by
  rw [map_eq_pure_bind]
  exact hp.bindPure hf

theorem reads_next (spelling : Spelling) :
    Reads Parser.next [spelling] follow (·.spelling = spelling) := by
  intro tokens rest ht _
  obtain ⟨token, rfl, rfl⟩ := List.map_eq_singleton_iff.mp ht
  exact ⟨token, rfl, rfl⟩

theorem reads_accept (text : Text) :
    Reads (accept kind) [(kind, text)] follow (· = true) := by
  intro tokens rest ht _
  obtain ⟨token, rfl, hs⟩ := List.map_eq_singleton_iff.mp ht
  have hk : token.kind = kind := congrArg Prod.fst hs
  refine ⟨true, ?_, rfl⟩
  simp [accept, hk]

theorem accept_refuses {tokens : List Token} (h : (tokens.headD Token.stop).kind ≠ kind) :
    accept kind tokens = .ok false tokens := by
  cases tokens with
  | nil => rfl
  | cons token rest => simpa [accept] using h

theorem reads_refuse (h : ∀ s, follow s → (headSpelling s).1 ≠ kind) :
    Reads (accept kind) [] follow (· = false) := by
  intro tokens rest ht hr
  obtain rfl := List.map_eq_nil_iff.mp ht
  refine ⟨false, accept_refuses ?_, rfl⟩
  have hk := h _ hr
  rwa [headSpelling_map] at hk

theorem reads_expect (text : Text) :
    Reads (expect kind) [(kind, text)] follow (·.spelling = (kind, text)) := by
  intro tokens rest ht _
  obtain ⟨token, rfl, hs⟩ := List.map_eq_singleton_iff.mp ht
  have hk : token.kind = kind := congrArg Prod.fst hs
  refine ⟨token, ?_, hs⟩
  simp [expect, peek, peekAt, accept, hk, Bind.bind, EStateM.bind, Pure.pure, EStateM.pure]

-- What was looked at is the first of the tokens to take, or else of what follows them.
theorem Reads.peek {f : Token → Parser α}
    (hf : ∀ token : Token, (∃ s, follow s ∧ token.spelling = headSpelling (spellings ++ s)) →
      Reads (f token) spellings follow Q) :
    Reads (Parser.peek >>= f) spellings follow Q := by
  intro tokens rest ht hr
  refine hf ((tokens ++ rest).getD 0 Token.stop) ⟨_, hr, ?_⟩ tokens rest ht hr
  rw [← ht, ← List.map_append, headSpelling_map, List.getD_eq_getElem?_getD,
    ← List.head?_eq_getElem?, ← List.headD_eq_head?_getD]

theorem Reads.peekNext {f : Token → Parser α}
    (hf : ∀ token : Token, (∃ s, follow s ∧ token.spelling = headSpelling (spellings ++ s).tail) →
      Reads (f token) spellings follow Q) :
    Reads (Parser.peekNext >>= f) spellings follow Q := by
  intro tokens rest ht hr
  refine hf ((tokens ++ rest).getD 1 Token.stop) ⟨_, hr, ?_⟩ tokens rest ht hr
  rw [← ht, ← List.map_append, ← List.map_tail, headSpelling_map]
  cases tokens ++ rest with
  | nil => rfl
  | cons first others => cases others <;> rfl

theorem Reads.ite {c : Prop} [Decidable c] {q : Parser α}
    (hp : c → Reads p spellings follow Q) (hq : ¬c → Reads q spellings follow Q) :
    Reads (if c then p else q) spellings follow Q := by
  split
  · exact hp ‹_›
  · exact hq ‹_›

-- The first of two ways, after the token that opens it.
theorem Reads.accepted {f : Bool → Parser α} (text : Text)
    (hf : Reads (f true) spellings follow Q) :
    Reads (accept kind >>= f) ((kind, text) :: spellings) follow Q := by
  have haccept : Reads (accept kind) [(kind, text)] (fun _ => True) (· = true) := reads_accept text
  exact haccept.bind (fun _ h => h ▸ hf) fun _ _ => trivial

-- The other way, when that token is not there.
theorem Reads.refused {f : Bool → Parser α}
    (h : ∀ s, follow s → (headSpelling (spellings ++ s)).1 ≠ kind)
    (hf : Reads (f false) spellings follow Q) : Reads (accept kind >>= f) spellings follow Q := by
  have hrefuse : Reads (accept kind) [] (fun s => (headSpelling s).1 ≠ kind) (· = false) :=
    reads_refuse fun _ hs => hs
  exact hrefuse.bind (fun _ h => h ▸ hf) h

theorem Reads.expected {f : Token → Parser α} (text : Text)
    (hf : ∀ token : Token, token.spelling = (kind, text) → Reads (f token) spellings follow Q) :
    Reads (expect kind >>= f) ((kind, text) :: spellings) follow Q := by
  have hexpect : Reads (expect kind) [(kind, text)] (fun _ => True) (·.spelling = (kind, text)) :=
    reads_expect text
  exact hexpect.bind hf fun _ _ => trivial

theorem Reads.taken {f : Token → Parser α} {spelling : Spelling}
    (hf : ∀ token : Token, token.spelling = spelling → Reads (f token) spellings follow Q) :
    Reads (Parser.next >>= f) (spelling :: spellings) follow Q := by
  have hnext : Reads Parser.next [spelling] (fun _ => True) (·.spelling = spelling) :=
    reads_next spelling
  exact hnext.bind hf fun _ _ => trivial

-- Items each after the tokens that the test takes before them, up to the tokens with which it stops.
theorem Reads.repeatUntil {ι : Type} {stop : Parser Bool} {item : Parser α}
    {lead final : List Spelling} {spell : ι → List Spelling} {R : ι → α → Prop}
    {start inner : List Spelling → Prop} {is : List ι}
    (hlead : Reads stop lead start (· = false))
    (hitem : ∀ i ∈ is, Reads item (spell i) inner (R i))
    (hfinal : Reads stop final next (· = true))
    (hstart : ∀ i ∈ is, ∀ s, inner s → start (spell i ++ s))
    (hinner : ∀ i ∈ is, ∀ s, inner (lead ++ spell i ++ s))
    (hend : ∀ s, next s → inner (final ++ s))
    (hne : ∀ i ∈ is, lead ++ spell i ≠ []) :
    Reads (Parser.repeatUntil stop item) (is.flatMap (fun i => lead ++ spell i) ++ final) next
      (List.Forall₂ R is) := by
  induction is with
  | nil =>
      intro tokens rest ht hr
      obtain ⟨stopped, hstop, rfl⟩ := hfinal tokens rest ht hr
      refine ⟨[], ?_, .nil⟩
      rw [Parser.repeatUntil, hstop]
  | cons i others ih =>
      intro tokens rest ht hr
      rw [List.flatMap_cons, List.append_assoc, List.append_assoc] at ht
      obtain ⟨before, after, rfl, hbefore, hafter⟩ := List.map_eq_append_iff.mp ht
      obtain ⟨first, later, rfl, hfirst, hlater⟩ := List.map_eq_append_iff.mp hafter
      have hfollow : inner ((later ++ rest).map Token.spelling) := by
        rw [List.map_append, hlater]
        cases others with
        | nil => exact hend _ hr
        | cons j more =>
            rw [List.flatMap_cons, List.append_assoc, List.append_assoc]
            exact hinner j (by simp) _
      obtain ⟨stopped, hstop, rfl⟩ := hlead before (first ++ later ++ rest) hbefore (by
        rw [List.append_assoc, List.map_append, hfirst]
        exact hstart i (by simp) _ hfollow)
      obtain ⟨a, hread, ha⟩ := hitem i (by simp) first (later ++ rest) hfirst hfollow
      obtain ⟨as, hmore, has⟩ := ih (fun j hj => hitem j (by simp [hj]))
        (fun j hj => hstart j (by simp [hj])) (fun j hj => hinner j (by simp [hj]))
        (fun j hj => hne j (by simp [hj])) later rest hlater hr
      have hshorter : (later ++ rest).length < (before ++ (first ++ later) ++ rest).length := by
        have hpos : 0 < (before ++ first).length := by
          rw [List.length_pos_iff]
          intro he
          refine hne i (by simp) ?_
          rw [← hbefore, ← hfirst, ← List.map_append, he]
          rfl
        simp only [List.length_append] at hpos ⊢
        omega
      refine ⟨a :: as, ?_, .cons ha has⟩
      rw [Parser.repeatUntil, List.append_assoc, hstop]
      simp only [List.append_assoc] at hread hmore ⊢
      rw [hread]
      simp only
      rw [List.append_assoc, List.append_assoc] at hshorter
      rw [if_pos hshorter, hmore]

theorem Reads.repeatNone {stop : Parser Bool} {item : Parser α}
    (h : Reads stop spellings follow (· = true)) :
    Reads (Parser.repeatUntil stop item) spellings follow (· = []) := by
  intro tokens rest ht hr
  obtain ⟨stopped, hstop, rfl⟩ := h tokens rest ht hr
  exact ⟨[], by rw [Parser.repeatUntil, hstop], rfl⟩

-- Items with a token before each but the first.
def separatedBy (separator : Spelling) : List (List Spelling) → List Spelling
  | [] => []
  | first :: rest => first ++ rest.flatMap (separator :: ·)

-- What may follow an item of a list: a separator, or the end of the list.
def AfterItem (separator close : TokenKind) (spellings : List Spelling) : Prop :=
  (headSpelling spellings).1 = separator ∨ (headSpelling spellings).1 = close

theorem Reads.separated {ι : Type} {item : Parser α} {text : Text} {spell : ι → List Spelling}
    {R : ι → α → Prop} {inner : List Spelling → Prop} {i : ι} {is : List ι}
    (hitem : ∀ j ∈ i :: is, Reads item (spell j) inner (R j))
    (hinner : is ≠ [] → ∀ s, inner ((kind, text) :: s)) (hend : ∀ s, next s → inner s)
    (hnext : ∀ s, next s → (headSpelling s).1 ≠ kind) :
    Reads (Parser.separated kind item) (separatedBy (kind, text) ((i :: is).map spell)) next
      (List.Forall₂ R (i :: is)) := by
  have hlead : Reads (do return !(← accept kind)) [(kind, text)] (fun _ => True) (· = false) :=
    .accepted text (.pure rfl)
  have hfinal : Reads (do return !(← accept kind)) [] next (· = true) :=
    .refused hnext (.pure rfl)
  have hmore : Reads (Parser.repeatUntil (do return !(← accept kind)) item)
      (is.flatMap (fun j => [(kind, text)] ++ spell j) ++ []) next (List.Forall₂ R is) :=
    .repeatUntil hlead (fun j hj => hitem j (by simp [hj])) hfinal
      (fun _ _ _ _ => trivial) (fun _ hj _ => hinner (List.ne_nil_of_mem hj) _) hend (by simp)
  rw [List.append_nil] at hmore
  rw [List.map_cons, separatedBy, List.flatMap_map]
  refine .bind (hitem i (by simp)) (fun a ha => ?_) ?_
  · exact hmore.bindPure fun _ h => .cons ha h
  · intro s hs
    cases is with
    | nil => exact hend _ hs
    | cons j others => exact hinner (by simp) _

-- One item, and no separator after it.
theorem Reads.separatedOne {item : Parser α} {a : α} (h : Reads item spellings next (· = a))
    (hnext : ∀ s, next s → (headSpelling s).1 ≠ kind) :
    Reads (Parser.separated kind item) spellings next (· = [a]) := by
  have hone : Reads (Parser.separated kind item)
      (separatedBy (sign kind) ([()].map fun _ => spellings)) next
      (List.Forall₂ (fun _ b => b = a) [()]) :=
    .separated (fun _ _ => h) (fun hne => absurd rfl hne) (fun _ hs => hs) hnext
  have hlist := hone.mono (R := (· = [a])) (fun _ hs => hs) fun as has => by
    obtain ⟨b, rest, rfl, hr, rfl⟩ := List.forall₂_cons_left_iff.mp has
    obtain rfl := List.forall₂_nil_left_iff.mp hr
    rfl
  simpa [separatedBy] using hlist

theorem reads_closes {expected : List TokenKind} {close : TokenKind} {text : Text} :
    Reads (closes close expected) [(close, text)] follow (· = true) :=
  .accepted text (.pure rfl)

theorem reads_continues {expected : List TokenKind} {close : TokenKind} (hc : close ≠ .comma) :
    Reads (closes close expected) [sign .comma] (fun s => (headSpelling s).1 ≠ close)
      (· = false) := by
  refine .refused (fun _ _ => Ne.symm hc) (.accepted "," ?_)
  exact reads_refuse fun _ h => h

theorem Reads.items {ι : Type} {item : Parser α} {expected : List TokenKind} {close : TokenKind}
    {text : Text} {spell : ι → List Spelling} {R : ι → α → Prop} {i : ι} {is : List ι}
    (hitem : ∀ j ∈ i :: is, Reads item (spell j) (AfterItem .comma close) (R j))
    (hstart : ∀ j ∈ is, ∀ s, (headSpelling (spell j ++ s)).1 ≠ close) (hc : close ≠ .comma) :
    Reads (Parser.items close expected item)
      (separatedBy (sign .comma) ((i :: is).map spell) ++ [(close, text)]) next
      (List.Forall₂ R (i :: is)) := by
  have hmore : Reads (Parser.repeatUntil (closes close expected) item)
      (is.flatMap (fun j => [sign .comma] ++ spell j) ++ [(close, text)]) next
      (List.Forall₂ R is) :=
    .repeatUntil (reads_continues hc) (fun j hj => hitem j (by simp [hj])) reads_closes
      (fun j hj s _ => hstart j hj s) (fun _ _ _ => .inl rfl) (fun _ _ => .inr rfl) (by simp)
  rw [List.map_cons, separatedBy, List.flatMap_map, List.append_assoc]
  refine .bind (hitem i (by simp)) (fun a ha => ?_) ?_
  · exact hmore.bindPure fun _ h => .cons ha h
  · intro s hs
    cases is with
    | nil => exact .inr rfl
    | cons j others => exact .inl rfl

-- A list that may be empty, up to the token that closes it.
theorem Reads.itemsOrNone {ι : Type} {item : Parser α} {expected : List TokenKind}
    {close : TokenKind} {text : Text} {spell : ι → List Spelling} {R : ι → α → Prop} {is : List ι}
    (hitem : ∀ j ∈ is, Reads item (spell j) (AfterItem .comma close) (R j))
    (hstart : ∀ j ∈ is, ∀ s, (headSpelling (spell j ++ s)).1 ≠ close) (hc : close ≠ .comma) :
    Reads (Parser.itemsOrNone close expected item)
      (separatedBy (sign .comma) (is.map spell) ++ [(close, text)]) next
      (List.Forall₂ R is) := by
  cases is with
  | nil => exact .accepted text (.pure .nil)
  | cons i others =>
      refine .refused (fun s _ => ?_) (.items hitem (fun j hj => hstart j (by simp [hj])) hc)
      rw [List.map_cons, separatedBy, List.append_assoc, List.append_assoc]
      exact hstart i (by simp) _

theorem dottedRest_stops {tokens : List Token} (h : (tokens.headD Token.stop).kind ≠ .dot) :
    dottedRest tokens = ([], tokens) := by
  unfold dottedRest
  split
  · rw [if_neg fun hk => h hk.1]
  · rfl

theorem dottedRest_spelled {text : Text} {spellings : List Spelling}
    (h : DottedSpelling text spellings) : ∀ {dot : Token} {tokens rest : List Token},
      dot.kind = .dot → tokens.map Token.spelling = spellings →
      (rest.headD Token.stop).kind ≠ .dot →
      dottedRest (dot :: tokens ++ rest) = ('.' :: text, rest) := by
  induction h with
  | single hn =>
      intro dot tokens rest hd ht hr
      obtain ⟨token, rfl, hs⟩ := List.map_eq_singleton_iff.mp ht
      obtain ⟨hk, htext⟩ := Prod.mk.inj hs
      rw [List.cons_append, List.singleton_append, dottedRest, if_pos ⟨hd, hk⟩,
        dottedRest_stops hr, htext]
      simp
  | cons hn _ ih =>
      intro dot tokens rest hd ht hr
      obtain ⟨token, others, rfl, hs, ht⟩ := List.map_eq_cons_iff.mp ht
      obtain ⟨again, others, rfl, ha, ht⟩ := List.map_eq_cons_iff.mp ht
      obtain ⟨hk, htext⟩ := Prod.mk.inj hs
      have hinner := ih (congrArg Prod.fst ha) ht hr
      rw [List.cons_append, List.cons_append, dottedRest, if_pos ⟨hd, hk⟩, htext]
      simp only [hinner]
      simp

theorem reads_dottedName {text : Text} (h : DottedSpelling text spellings) :
    Reads dottedName spellings (fun s => (headSpelling s).1 ≠ .dot) (· = text) := by
  cases h with
  | single hn =>
      refine .expected text fun token ht => ?_
      intro tokens rest hs hr
      obtain rfl := List.map_eq_nil_iff.mp hs
      rw [headSpelling_map] at hr
      have htext : token.text = text := congrArg Prod.snd ht
      refine ⟨token.text ++ [], ?_, by rw [List.append_nil, htext]⟩
      simp [Bind.bind, EStateM.bind, dottedRest_stops hr, Pure.pure, EStateM.pure]
  | @cons name more spellings hn hm =>
      refine .expected name fun token ht => ?_
      intro tokens rest hs hr
      obtain ⟨dot, others, rfl, hd, hs⟩ := List.map_eq_cons_iff.mp hs
      rw [headSpelling_map] at hr
      have hrest := dottedRest_spelled hm (congrArg Prod.fst hd) hs hr
      have htext : token.text = name := congrArg Prod.snd ht
      refine ⟨token.text ++ '.' :: more, ?_, by rw [htext]⟩
      simp only [Bind.bind, EStateM.bind, hrest]
      rfl

end

end Parser

end TypeStub
