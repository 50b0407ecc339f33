import TypeStub.Grammar.Statement
import TypeStub.Proofs.Grammar.Reads
import TypeStub.Proofs.Grammar.TypeSound

namespace TypeStub

namespace Parser

-- A parser that gives a result and stops there, unless types nest too deep for it.
def Ends {α : Type} (deep : Prop) (p : Parser α) (tokens : List Token) (a : α)
    (rest : List Token) : Prop :=
  p tokens = .ok a rest ∨ deep ∧ ∃ left, p tokens = .error .nestingTooDeep left

-- A parser that takes each span of a relation, before tokens of which the first is of certain
-- kinds.
def Takes {α : Type} (deep : Prop) (p : Parser α) (R : List Token → α → Prop)
    (follow : TokenKind → Prop) : Prop :=
  ∀ ⦃span a⦄, R span a → ∀ rest : List Token, follow (rest.headD Token.stop).kind →
    Ends deep p (span ++ rest) a rest

section

variable {α β : Type} {deep : Prop} {p : Parser α} {tokens middle rest : List Token} {a : α}
  {b : β} {kind : TokenKind} {t : Token}

theorem bind_of_ok {f : α → Parser β} (h : p tokens = .ok a middle) :
    (p >>= f) tokens = f a middle := by
  simp only [bind, EStateM.bind, h]

theorem Ends.bind {f : α → Parser β} (hp : Ends deep p tokens a middle)
    (hf : Ends deep (f a) middle b rest) : Ends deep (p >>= f) tokens b rest := by
  obtain hok | ⟨hdeep, left, herror⟩ := hp
  · rwa [Ends, bind_of_ok hok]
  · exact .inr ⟨hdeep, left, by simp only [Bind.bind, EStateM.bind, herror]⟩

theorem Ends.pure : Ends deep (Pure.pure a) tokens a tokens := .inl rfl

theorem Ends.peeked {f : Token → Parser β} (hf : Ends deep (f t) (t :: tokens) b rest) :
    Ends deep (peek >>= f) (t :: tokens) b rest := .bind (.inl rfl) hf

theorem Ends.peekedNext {f : Token → Parser β}
    (hf : Ends deep (f (tokens.headD Token.stop)) (t :: tokens) b rest) :
    Ends deep (peekNext >>= f) (t :: tokens) b rest := by
  refine .bind (.inl rfl) ?_
  cases tokens <;> exact hf

theorem Ends.taken {f : Token → Parser β} (hf : Ends deep (f t) tokens b rest) :
    Ends deep (next >>= f) (t :: tokens) b rest := .bind (.inl rfl) hf

theorem Ends.accepted {f : Bool → Parser β} (ht : t.kind = kind)
    (hf : Ends deep (f true) tokens b rest) : Ends deep (accept kind >>= f) (t :: tokens) b rest := by
  have haccept : accept kind (t :: tokens) = .ok true tokens := by simp [accept, ht]
  exact .bind (.inl haccept) hf

theorem Ends.refused {f : Bool → Parser β} (ht : (tokens.headD Token.stop).kind ≠ kind)
    (hf : Ends deep (f false) tokens b rest) : Ends deep (accept kind >>= f) tokens b rest :=
  .bind (.inl (accept_refuses ht)) hf

theorem Ends.expected {f : Token → Parser β} (ht : t.kind = kind)
    (hf : Ends deep (f t) tokens b rest) : Ends deep (expect kind >>= f) (t :: tokens) b rest := by
  have hexpect : expect kind (t :: tokens) = .ok t tokens := by
    simp [expect, peek, peekAt, accept, ht, Bind.bind, EStateM.bind, Pure.pure, EStateM.pure]
  exact .bind (.inl hexpect) hf

end

section

variable {α : Type} {deep : Prop} {item : Parser α} {R : List Token → α → Prop}
  {L E : List Token → Prop} {stop : Parser Bool} {follow inner : TokenKind → Prop}

theorem Takes.repeatUntil (hitem : Takes deep item R inner)
    (hlead : ∀ ⦃lead span a⦄, L lead → R span a → ∀ rest,
      stop (lead ++ (span ++ rest)) = .ok false (span ++ rest))
    (hend : ∀ ⦃final⦄, E final → ∀ rest : List Token, follow (rest.headD Token.stop).kind →
      stop (final ++ rest) = .ok true rest)
    (hne : ∀ lead, L lead → lead ≠ [])
    (hinner : ∀ ⦃span as⦄, Repeated L R E span as → ∀ rest : List Token,
      follow (rest.headD Token.stop).kind → inner ((span ++ rest).headD Token.stop).kind) :
    Takes deep (Parser.repeatUntil stop item) (Repeated L R E) follow := by
  intro span as h rest hrest
  induction h with
  | nil hfinal =>
      refine .inl ?_
      rw [Parser.repeatUntil, hend hfinal rest hrest]
  | @cons lead span after a as hl hspan hafter ih =>
      have hstop := hlead hl hspan (after ++ rest)
      have htokens : lead ++ (span ++ after) ++ rest = lead ++ (span ++ (after ++ rest)) := by simp
      have hpos := List.length_pos_iff.mpr (hne lead hl)
      have hshorter : (after ++ rest).length < (lead ++ (span ++ (after ++ rest))).length := by
        simp only [List.length_append]
        omega
      unfold Ends
      rw [htokens, Parser.repeatUntil, hstop]
      obtain hread | ⟨hdeep, left, herror⟩ := hitem hspan (after ++ rest) (hinner hafter rest hrest)
      · simp only [hread, if_pos hshorter]
        obtain hmore | ⟨hdeep, left, herror⟩ := ih
        · exact .inl (by rw [hmore])
        · exact .inr ⟨hdeep, left, by rw [herror]⟩
      · exact .inr ⟨hdeep, left, by simp only [herror]⟩

end

section

open Grammar

variable {α : Type} {deep : Prop} {item : Parser α} {R : List Token → α → Prop}
  {kind close : TokenKind} {follow inner : TokenKind → Prop}

theorem repeated_of_sequenced {span : List Token} {as : List α} (h : Sequenced kind R span as) :
    ∃ first after a others, span = first ++ after ∧ as = a :: others ∧ R first a ∧
      Repeated (IsToken kind) R (· = []) after others := by
  induction h with
  | one hr => exact ⟨_, [], _, [], (List.append_nil _).symm, rfl, hr, .nil rfl⟩
  | @more _ _ t _ _ hr ht _ ih =>
      obtain ⟨first, after, a, others, rfl, rfl, ha, hrest⟩ := ih
      have hlead : IsToken kind [t] := ⟨t, ht, rfl⟩
      exact ⟨_, _, _, _, rfl, rfl, hr, .cons hlead ha hrest⟩

theorem Takes.separated (hitem : Takes deep item R inner) (hkind : inner kind)
    (hfollow : ∀ k, follow k → inner k ∧ k ≠ kind) :
    Takes deep (Parser.separated kind item) (Sequenced kind R) follow := by
  have hnext : ∀ ⦃span as⦄, Repeated (IsToken kind) R (· = []) span as → ∀ rest : List Token,
      follow (rest.headD Token.stop).kind → inner ((span ++ rest).headD Token.stop).kind := by
    intro span as h rest hrest
    cases h with
    | nil hfinal => exact hfinal ▸ (hfollow _ hrest).1
    | cons hlead =>
        obtain ⟨t, ht, rfl⟩ := hlead
        exact ht ▸ hkind
  have hrepeat : Takes deep (Parser.repeatUntil (do return !(← accept kind)) item)
      (Repeated (IsToken kind) R (· = [])) follow := by
    refine .repeatUntil hitem ?_ ?_ (fun _ => IsToken.ne_nil) hnext
    · rintro _ span a ⟨t, ht, rfl⟩ - rest
      have haccept : accept kind (t :: (span ++ rest)) = .ok true (span ++ rest) := by
        simp [accept, ht]
      exact bind_of_ok haccept
    · rintro _ rfl rest hrest
      exact bind_of_ok (accept_refuses (hfollow _ hrest).2)
  intro span as h rest hrest
  obtain ⟨first, after, a, others, rfl, rfl, ha, hafter⟩ := repeated_of_sequenced h
  rw [List.append_assoc]
  exact .bind (hitem ha _ (hnext hafter rest hrest)) (.bind (hrepeat hafter rest hrest) .pure)

theorem repeated_of_closed {span : List Token} {as : List α} (h : Closed close (Listed R) span as) :
    ∃ first after a others, span = first ++ after ∧ as = a :: others ∧ R first a ∧
      Repeated (IsToken .comma) R (IsClosing close) after others := by
  obtain ⟨_, t, rfl, ⟨body, tail, rfl, hbody, htail⟩, ht⟩ := h
  rw [List.append_assoc]
  have hfinal : IsClosing close (tail ++ [t]) := ⟨tail, t, rfl, htail, ht⟩
  induction hbody with
  | one hr => exact ⟨_, _, _, [], rfl, rfl, hr, .nil hfinal⟩
  | @more _ _ comma _ _ hr hcomma _ ih =>
      obtain ⟨first, after, a, others, hsplit, rfl, ha, hrest⟩ := ih
      have hlead : IsToken .comma [comma] := ⟨comma, hcomma, rfl⟩
      refine ⟨_, _, _, _, ?_, rfl, hr, .cons hlead ha hrest⟩
      rw [List.append_assoc, List.cons_append, hsplit]
      rfl

theorem closes_close {expected : List TokenKind} {t : Token} {rest : List Token}
    (ht : t.kind = close) : closes close expected (t :: rest) = .ok true rest := by
  simp [closes, accept, ht, Bind.bind, EStateM.bind, Pure.pure, EStateM.pure]

theorem closes_comma {expected : List TokenKind} {comma : Token} {rest : List Token}
    (hc : comma.kind = .comma) (hne : close ≠ .comma) :
    closes close expected (comma :: rest) = accept close rest := by
  simp [closes, accept, hc, hne.symm, Bind.bind, EStateM.bind]

-- Items up to a closing token, whatever follows it. No item starts with that token.
theorem Takes.items {expected : List TokenKind} (hitem : Takes deep item R inner)
    (hcomma : inner .comma) (hclose : inner close) (hne : close ≠ .comma)
    (hstart : Begins R (· ≠ close)) :
    Takes deep (Parser.items close expected item) (Closed close (Listed R)) fun _ => True := by
  have hnext : ∀ ⦃span as⦄, Repeated (IsToken .comma) R (IsClosing close) span as →
      ∀ rest : List Token, True → inner ((span ++ rest).headD Token.stop).kind := by
    intro span as h rest _
    cases h with
    | nil hfinal =>
        obtain ⟨tail, t, rfl, htail, ht⟩ := hfinal
        obtain rfl | ⟨comma, hc, rfl⟩ := htail
        · exact ht ▸ hclose
        · exact hc ▸ hcomma
    | cons hlead =>
        obtain ⟨t, ht, rfl⟩ := hlead
        exact ht ▸ hcomma
  have hrepeat : Takes deep (Parser.repeatUntil (closes close expected) item)
      (Repeated (IsToken .comma) R (IsClosing close)) fun _ => True := by
    refine .repeatUntil hitem ?_ ?_ (fun _ => IsToken.ne_nil) hnext
    · rintro _ span a ⟨comma, hc, rfl⟩ hspan rest
      obtain ⟨t, more, rfl, ht⟩ := hstart hspan
      exact (closes_comma hc hne).trans (accept_refuses ht)
    · rintro _ ⟨tail, t, rfl, htail, ht⟩ rest -
      obtain rfl | ⟨comma, hc, rfl⟩ := htail
      · exact closes_close ht
      · exact (closes_comma hc hne).trans (by simp [accept, ht])
  intro span as h rest hrest
  obtain ⟨first, after, a, others, rfl, rfl, ha, hafter⟩ := repeated_of_closed h
  rw [List.append_assoc]
  exact .bind (hitem ha _ (hnext hafter rest trivial)) (.bind (hrepeat hafter rest trivial) .pure)

-- The same, or nothing at all.
theorem Takes.itemsOrNone {expected : List TokenKind} (hitem : Takes deep item R inner)
    (hcomma : inner .comma) (hclose : inner close) (hne : close ≠ .comma)
    (hstart : Begins R (· ≠ close)) :
    Takes deep (Parser.itemsOrNone close expected item) (Closed close (ListedOrNone R))
      fun _ => True := by
  have hitems : Takes deep (Parser.items close expected item) (Closed close (Listed R))
      fun _ => True := .items hitem hcomma hclose hne hstart
  rintro _ as ⟨body, t, rfl, hbody, ht⟩ rest -
  obtain ⟨rfl, rfl⟩ | hlisted := hbody
  · exact .accepted ht .pure
  · refine .refused ?_ (hitems ⟨body, t, rfl, hlisted, ht⟩ rest trivial)
    obtain ⟨first, more, rfl, hfirst⟩ := Listed.begins hstart hlisted
    exact hfirst

theorem dottedRest_complete {span rest : List Token} {names : List Text}
    (h : Sequenced .dot IsName span names) (hrest : (rest.headD Token.stop).kind ≠ .dot) :
    ∃ first more, span = first :: more ∧ first.kind = .ident ∧
      ∃ text, dottedRest (more ++ rest) = (text, rest) ∧
        first.text ++ text = Text.joinWith "." names := by
  induction h with
  | one hname =>
      obtain ⟨t, ht, rfl, rfl⟩ := hname
      exact ⟨t, [], rfl, ht, [], dottedRest_stops hrest, by
        rw [List.append_nil, Text.joinWith_singleton]⟩
  | @more _ _ dot _ names hname hdot hafter ih =>
      obtain ⟨t, ht, rfl, rfl⟩ := hname
      obtain ⟨first, more, rfl, hfirst, text, hdotted, htext⟩ := ih
      refine ⟨t, dot :: first :: more, rfl, ht, '.' :: first.text ++ text, ?_, ?_⟩
      · rw [List.cons_append, List.cons_append, dottedRest, if_pos ⟨hdot, hfirst⟩, hdotted]
      · obtain ⟨next, others, rfl⟩ := List.exists_cons_of_ne_nil hafter.ne_nil
        rw [Text.joinWith_cons, ← htext]
        simp

theorem takes_dottedName : Takes deep dottedName IsDotted (· ≠ .dot) := by
  rintro span _ ⟨names, hnames, rfl⟩ rest hrest
  obtain ⟨first, more, rfl, hfirst, text, hdotted, htext⟩ := dottedRest_complete hnames hrest
  refine .expected hfirst (.inl ?_)
  show EStateM.Result.ok (first.text ++ (dottedRest (more ++ rest)).1)
    (dottedRest (more ++ rest)).2 = _
  rw [hdotted, htext]

end

end Parser

namespace Grammar

open TypeStub.Parser

section

variable {β : Type} {deep : Prop} {tokens rest : List Token} {b : β}

theorem Ends.maybeComma {q : Parser β} {tail : List Token} (htail : MaybeComma tail)
    (hne : (tokens.headD Token.stop).kind ≠ .comma) (hq : Ends deep q tokens b rest) :
    Ends deep (accept .comma >>= fun _ => q) (tail ++ tokens) b rest := by
  obtain rfl | ⟨t, ht, rfl⟩ := htail
  · exact .refused hne hq
  · exact .accepted ht hq

theorem Ends.fieldName {f : Text → Parser β} {t : Token} {text : Text} (h : IsFieldName t text)
    (hf : Ends deep (f text) tokens b rest) :
    Ends deep (Grammar.fieldName >>= f) (t :: tokens) b rest := by
  have hname : Grammar.fieldName (t :: tokens) = .ok text tokens := by
    obtain ⟨ht, rfl⟩ | ⟨ht, rfl⟩ := h
    · simp [Grammar.fieldName, peek, peekAt, next, ht, Bind.bind, EStateM.bind, Pure.pure,
        EStateM.pure]
    · simp [Grammar.fieldName, peek, peekAt, next, ht, Bind.bind, EStateM.bind, Pure.pure,
        EStateM.pure]
  exact .bind (.inl hname) hf

end

-- The kinds of token that may follow an atom, and those that may follow a type.
def FollowsAtom (kind : TokenKind) : Prop :=
  kind ≠ .dot ∧ kind ≠ .leftBracket ∧ kind ≠ .leftParen

def FollowsType (kind : TokenKind) : Prop := kind ≠ .kwOr ∧ FollowsAtom kind

variable {deep : Prop} {type : Parser Expr} {T : List Token → Expr → Prop}

theorem takes_recordField (htype : Takes deep type T FollowsType) :
    Takes deep (recordField type) (IsField T) fun _ => True := by
  rintro _ field ⟨left, name, comma, right, span, tail, hleft, hname, hcomma, hspan, htail, hright,
    rfl⟩ rest -
  have hfollow : FollowsType ((tail ++ right :: rest).headD Token.stop).kind := by
    obtain rfl | ⟨t, ht, rfl⟩ := htail
    · exact hright ▸ by simp [FollowsType, FollowsAtom]
    · exact ht ▸ by simp [FollowsType, FollowsAtom]
  have htokens : left :: name :: comma :: span ++ tail ++ [right] ++ rest =
      left :: name :: comma :: (span ++ (tail ++ right :: rest)) := by simp
  rw [htokens]
  refine .expected hleft (Ends.fieldName hname (.expected hcomma (.bind (htype hspan _ hfollow) ?_)))
  exact Ends.maybeComma htail (by simp [hright]) (.expected hright .pure)

theorem takes_record {word left : Token} (htype : Takes deep type T FollowsType)
    {fields : List (Text × Expr)} {name comma bracket closing right : Token}
    {span tail rest : List Token} {text : Text} (hname : IsFieldName name text)
    (hcomma : comma.kind = .comma) (hbracket : bracket.kind = .leftBracket)
    (hfields : ListedOrNone (IsField T) span fields) (hclosing : closing.kind = .rightBracket)
    (htail : MaybeComma tail) (hright : right.kind = .rightParen) :
    Ends deep (record type)
      (word :: left :: name :: comma :: bracket :: (span ++ [closing] ++ (tail ++ right :: rest)))
      (.record text fields) rest := by
  have hitems : Takes deep (itemsOrNone .rightBracket [.rightBracket] (recordField type))
      (Closed .rightBracket (ListedOrNone (IsField T))) fun _ => True := by
    refine .itemsOrNone (takes_recordField htype) trivial trivial (by simp) ?_
    intro span field hfield
    obtain ⟨t, more, rfl, ht⟩ := begins_isField hfield
    exact ⟨t, more, rfl, by simp [ht]⟩
  refine .taken (.taken (Ends.fieldName hname (.expected hcomma (.expected hbracket (.bind
    (hitems ⟨span, closing, rfl, hfields, hclosing⟩ _ trivial) ?_)))))
  exact Ends.maybeComma htail (by simp [hright]) (.expected hright .pure)

theorem takes_typeItems (htype : Takes deep type T FollowsType) (hstart : Begins T StartsType) :
    Takes deep (typeItems type) (Closed .rightBracket (Listed T)) fun _ => True := by
  refine .items htype (by simp [FollowsType, FollowsAtom]) (by simp [FollowsType, FollowsAtom])
    (by simp) fun span e h => ?_
  obtain ⟨t, more, rfl, ht⟩ := hstart h
  exact ⟨t, more, rfl, ht.ne_close⟩

-- A name is not taken for the opening of a record when no parenthesis follows it.
theorem IsDotted.second {span : List Token} {text : Text} (h : IsDotted span text) :
    ∃ first more, span = first :: more ∧ first.kind = .ident ∧ ∀ rest : List Token,
      (rest.headD Token.stop).kind ≠ .leftParen →
      ((more ++ rest).headD Token.stop).kind ≠ .leftParen := by
  obtain ⟨names, hnames, -⟩ := h
  cases hnames with
  | one hname =>
      obtain ⟨t, ht, rfl, -⟩ := hname
      exact ⟨t, [], rfl, ht, fun _ hrest => hrest⟩
  | @more _ _ dot _ _ hname hdot =>
      obtain ⟨t, ht, rfl, -⟩ := hname
      exact ⟨t, _, rfl, ht, fun rest _ => by simp [hdot]⟩

theorem takes_typeAtom (htype : Takes deep type T FollowsType) (hstart : Begins T StartsType) :
    Takes deep (typeAtom type) (IsAtom T) FollowsAtom := by
  have hitems := takes_typeItems htype hstart
  intro span e h rest hrest
  cases h with
  | question ht =>
      refine .peeked ?_
      rw [ht]
      exact .taken .pure
  | ellipsis ht =>
      refine .peeked ?_
      rw [ht]
      exact .taken .pure
  | @parenthesized left right inner _ hleft hinner hright =>
      have htokens : left :: inner ++ [right] ++ rest = left :: (inner ++ right :: rest) := by simp
      rw [htokens]
      refine .peeked ?_
      rw [hleft]
      refine .taken (.bind (htype hinner _ ?_) (.expected hright .pure))
      exact hright ▸ by simp [FollowsType, FollowsAtom]
  | emptyList hleft hright =>
      refine .peeked ?_
      rw [hleft]
      exact .taken (.accepted hright .pure)
  | @list left right types es hleft htypes hright =>
      have hes := hitems ⟨types, right, rfl, htypes, hright⟩ rest trivial
      refine .peeked ?_
      rw [hleft]
      refine .taken (.refused ?_ (.bind hes .pure))
      obtain ⟨t, more, rfl, ht⟩ := Listed.begins hstart htypes
      exact ht.ne_close
  | name hname =>
      have hdotted : Ends deep dottedName _ _ rest := takes_dottedName hname rest hrest.1
      obtain ⟨first, more, rfl, hfirst, hsecond⟩ := hname.second
      refine .peeked ?_
      rw [hfirst]
      refine .peekedNext ?_
      rw [if_neg fun hk => hsecond rest hrest.2.2 hk.2]
      exact .bind hdotted (.refused hrest.2.1 .pure)
  | @subscript name types left right text es hname hleft htypes hright =>
      have htokens : name ++ left :: types ++ [right] ++ rest =
          name ++ left :: (types ++ [right] ++ rest) := by simp
      have hdotted : Ends deep dottedName _ _ (left :: (types ++ [right] ++ rest)) :=
        takes_dottedName hname _ (by simp [hleft])
      have hes := hitems ⟨types, right, rfl, htypes, hright⟩ rest trivial
      rw [htokens]
      obtain ⟨first, more, rfl, hfirst, hsecond⟩ := hname.second
      refine .peeked ?_
      rw [hfirst]
      refine .peekedNext ?_
      rw [if_neg fun hk => hsecond (left :: (types ++ [right] ++ rest)) (by simp [hleft]) hk.2]
      exact .bind hdotted (.accepted hleft (.bind hes .pure))
  | @record word left name comma bracket closing right fields tail text es hword hnamed hleft hname
      hcomma hbracket hfields hclosing htail hright =>
      have htokens :
          word :: left :: name :: comma :: bracket :: fields ++ closing :: tail ++ [right] ++ rest =
            word :: left :: name :: comma :: bracket ::
              (fields ++ [closing] ++ (tail ++ right :: rest)) := by simp
      rw [htokens]
      refine .peeked ?_
      rw [hword]
      refine .peekedNext ?_
      rw [if_pos ⟨hnamed, hleft⟩]
      exact takes_record htype hname hcomma hbracket hfields hclosing htail hright

-- A type that has a derivation is taken whole. Only types nested deeper than the budget get in the
-- way.
theorem takes_typeExpr (budget depth : Nat) (hdeep : budget < depth → deep) :
    Takes deep (typeExpr budget) (IsType depth) FollowsType := by
  induction budget generalizing depth with
  | zero =>
      intro span e h rest _
      cases depth with
      | zero => exact h.elim
      | succ depth => exact .inr ⟨hdeep (Nat.zero_lt_succ depth), _, rfl⟩
  | succ budget ih =>
      intro span e h rest hrest
      cases depth with
      | zero => exact h.elim
      | succ depth =>
          have hinner := ih depth fun hlt => hdeep (Nat.succ_lt_succ hlt)
          have hatoms : Takes deep (separated .kwOr (typeAtom (typeExpr budget)))
              (Sequenced .kwOr (IsAtom (IsType depth))) FollowsType :=
            .separated (takes_typeAtom hinner (begins_isType depth)) (by simp [FollowsAtom])
              fun _ hk => ⟨hk.2, hk.1⟩
          obtain hatom | ⟨operands, htwo, hoperands, rfl⟩ := h
          · exact .bind (hatoms (.one hatom) rest hrest) .pure
          · refine .bind (hatoms hoperands rest hrest) ?_
            match operands, htwo with
            | _ :: _ :: _, _ => exact .pure

end Grammar

end TypeStub

namespace TypeStub.Grammar

-- Tokens that end with an end of file and have no other.
def EndsOnce (tokens : List Token) : Prop :=
  ∃ body e, tokens = body ++ [e] ∧ e.kind = .endOfFile ∧ ∀ t ∈ body, t.kind ≠ .endOfFile

-- A type that stays before the end leaves at least the end.
theorem EndsOnce.rest_ne_nil {before span rest : List Token} {depth : Nat} {e : Expr}
    (h : EndsOnce (before ++ (span ++ rest))) (hspan : IsType depth span e) : rest ≠ [] := by
  rintro rfl
  obtain ⟨first, more, rfl, -⟩ := begins_isType depth hspan
  obtain ⟨body, last, heq, hlast, -⟩ := h
  rw [List.append_nil] at heq
  have hgetLast : (before ++ first :: more).getLast? = some last := by
    rw [heq, List.getLast?_concat]
  rw [List.getLast?_append_of_ne_nil _ (List.cons_ne_nil first more)] at hgetLast
  exact bounded_isType depth hspan last (List.mem_of_getLast? hgetLast) hlast

-- At any place before the end, and with so many types already nested, the parser of types gives
-- exactly what the grammar derives within the limit, and stops right after it. A type that nests
-- deeper is an error.
theorem typeExpr_exact (before ahead : List Token) (hend : EndsOnce (before ++ ahead))
    (used : Nat) :
    (∀ e rest, typeExpr (nestingLimit - used) ahead = .ok e rest →
      rest ≠ [] ∧ ∃ span, ahead = span ++ rest ∧ IsType (nestingLimit - used) span e) ∧
    ∀ span rest e, ahead = span ++ rest → FollowsType (rest.headD Token.stop).kind →
      (IsType (nestingLimit - used) span e →
        typeExpr (nestingLimit - used) ahead = .ok e rest) ∧
      ∀ depth, IsType depth span e → ¬ IsType (nestingLimit - used) span e →
        ∃ left, typeExpr (nestingLimit - used) ahead = .error .nestingTooDeep left := by
  refine ⟨fun e rest h => ?_, ?_⟩
  · obtain ⟨span, rfl, hspan⟩ := sound_typeExpr _ h
    exact ⟨hend.rest_ne_nil hspan, span, rfl, hspan⟩
  · rintro span rest e rfl hfollow
    refine ⟨fun hspan => ?_, fun depth hspan hdeeper => ?_⟩
    · have htakes : Parser.Takes False (typeExpr (nestingLimit - used)) _ FollowsType :=
        takes_typeExpr _ _ (Nat.lt_irrefl _)
      obtain hok | ⟨hdeep, -⟩ := htakes hspan rest hfollow
      · exact hok
      · exact hdeep.elim
    · have htakes : Parser.Takes True (typeExpr (nestingLimit - used)) _ FollowsType :=
        takes_typeExpr _ depth fun _ => trivial
      obtain hok | ⟨-, herror⟩ := htakes hspan rest hfollow
      · obtain ⟨other, hsplit, hother⟩ := sound_typeExpr _ hok
        rw [List.append_cancel_right hsplit] at hdeeper
        exact absurd hother hdeeper
      · exact herror

theorem not_isType_one_subscript {span : List Token} {value : Expr} {elements : List Expr} :
    ¬ IsType 1 span (.subscript value elements) := by
  rintro (hatom | ⟨operands, -, -, heq⟩)
  · cases hatom with
    | parenthesized _ h => exact h
    | subscript _ _ hlisted =>
        obtain ⟨body, tail, -, hbody, -⟩ := hlisted
        cases hbody with
        | one h => exact h
        | more h => exact h
  · cases heq

-- A type in brackets is the second one of two nested types.
theorem typeExpr_exact_subscript :
    let name (text : Text) (column : Nat) : Token := ⟨.ident, text, 1, column⟩
    let sign (kind : TokenKind) (text : Text) (column : Nat) : Token := ⟨kind, text, 1, column⟩
    let span := [name "a" 4, sign .leftBracket "[" 5, name "b" 6, sign .comma "," 7,
      sign .rightBracket "]" 8]
    let rest := [sign .newline "\n" 9, ⟨.endOfFile, [], 2, 1⟩]
    let before := [name "x" 1, sign .colon ":" 2]
    let e := Expr.subscript (.name "a") [.name "b"]
    EndsOnce (before ++ (span ++ rest)) ∧ FollowsType (rest.headD Token.stop).kind ∧
      IsType (nestingLimit - 98) span e ∧ ¬ IsType (nestingLimit - 99) span e ∧
      typeExpr (nestingLimit - 98) (span ++ rest) = .ok e rest ∧
      ∃ left, typeExpr (nestingLimit - 99) (span ++ rest) = .error .nestingTooDeep left := by
  intro name sign span rest before e
  have hend : EndsOnce (before ++ (span ++ rest)) :=
    ⟨before ++ span ++ [sign .newline "\n" 9], _, rfl, rfl, by decide⟩
  have hfollow : FollowsType (rest.headD Token.stop).kind := by
    simp [FollowsType, FollowsAtom, rest, sign]
  have hname : ∀ text column, IsDotted [name text column] text := fun text column =>
    ⟨[text], .one ⟨_, rfl, rfl, rfl⟩, (Text.joinWith_singleton _ _).symm⟩
  have hlisted : Listed (IsType 1) [name "b" 6, sign .comma "," 7] [.name "b"] :=
    ⟨[name "b" 6], [sign .comma "," 7], rfl, .one (.inl (.name (hname "b" 6))),
      .inr ⟨_, rfl, rfl⟩⟩
  have hspan : IsType 2 span e := by
    have hatom : IsAtom (IsType 1) ([name "a" 4] ++ sign .leftBracket "[" 5 ::
        [name "b" 6, sign .comma "," 7] ++ [sign .rightBracket "]" 8]) e :=
      .subscript (hname "a" 4) rfl hlisted rfl
    exact .inl hatom
  have hdeeper : ¬ IsType 1 span e := not_isType_one_subscript
  refine ⟨hend, hfollow, hspan, hdeeper, ?_, ?_⟩
  · exact ((typeExpr_exact before (span ++ rest) hend 98).2 span rest e rfl hfollow).1 hspan
  · exact ((typeExpr_exact before (span ++ rest) hend 99).2 span rest e rfl hfollow).2 2 hspan
      hdeeper

end TypeStub.Grammar
