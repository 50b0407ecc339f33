import TypeStub.Proofs.Grammar.HeaderGrammar
import TypeStub.Proofs.Grammar.TypeComplete

-- The parser of definitions takes every header of the grammar, and no other.
namespace TypeStub.Grammar

open TypeStub.Parser

section

variable {α : Type} {deep : Prop} {kind : TokenKind} {p : Parser α} {R : List Token → α → Prop}
  {follow : TokenKind → Prop} {type : Parser Expr} {T : List Token → Expr → Prop}

theorem Ends.looked {β : Type} {f : Token → Parser β} {tokens rest : List Token} {b : β}
    (hf : Ends deep (f (tokens.headD Token.stop)) tokens b rest) :
    Ends deep (peek >>= f) tokens b rest := by
  refine .bind (.inl rfl) ?_
  cases tokens <;> exact hf

theorem takes_marked (hp : Takes deep p R follow) :
    Takes deep (do
      if ← accept kind then return some (← p)
      return none : Parser (Option α)) (Marked kind R) fun k => follow k ∧ k ≠ kind := by
  rintro span a (⟨rfl, rfl⟩ | ⟨t, inner, b, ht, hinner, rfl, rfl⟩) rest hrest
  · exact .refused hrest.2 .pure
  · exact .accepted ht (.bind (hp hinner rest hrest.1) .pure)

theorem takes_signedNumber : Takes deep signedNumber IsSigned fun _ => True := by
  intro span e h rest _
  cases h with
  | @plain t _ _ hnumeral =>
      cases hnumeral with
      | int ht hvalue =>
          refine .refused (by simp [ht]) (.peeked ?_)
          simp only [ht, hvalue]
          exact .taken .pure
      | float ht hvalue =>
          refine .refused (by simp [ht]) (.peeked ?_)
          simp only [ht, hvalue]
          exact .taken .pure
  | negative hminus hnumeral =>
      refine .accepted hminus (.peeked ?_)
      cases hnumeral with
      | int ht hvalue =>
          simp only [ht, hvalue]
          exact .taken .pure
      | float ht hvalue =>
          simp only [ht, hvalue]
          exact .taken .pure

theorem IsSigned.begins {span : List Token} {e : Expr} (h : IsSigned span e) :
    ∃ t more, span = t :: more ∧ (t.kind = .int ∨ t.kind = .float ∨ t.kind = .minus) := by
  cases h with
  | plain hnumeral =>
      cases hnumeral with
      | int ht => exact ⟨_, _, rfl, .inl ht⟩
      | float ht => exact ⟨_, _, rfl, .inr (.inl ht)⟩
  | negative hminus => exact ⟨_, _, rfl, .inr (.inr hminus)⟩

theorem takes_defaultValue : Takes deep defaultValue IsDefaultValue (· ≠ .dot) := by
  intro span e h rest hrest
  cases h with
  | number hnumber =>
      have hsigned : Ends deep signedNumber (span ++ rest) e rest :=
        takes_signedNumber hnumber rest trivial
      obtain ⟨t, more, rfl, hkind⟩ := hnumber.begins
      refine .peeked ?_
      obtain ht | ht | ht := hkind <;> rwa [ht]
  | bool ht =>
      refine .peeked ?_
      rw [ht]
      exact .taken .pure
  | ellipsis ht =>
      refine .peeked ?_
      rw [ht]
      exact .taken .pure
  | string ht =>
      refine .peeked ?_
      rw [ht]
      exact .taken .pure
  | name hname =>
      have hdotted : Ends deep dottedName (span ++ rest) _ rest := takes_dottedName hname rest hrest
      obtain ⟨first, more, rfl, hfirst⟩ := begins_isDotted hname
      refine .peeked ?_
      rw [hfirst]
      exact .bind hdotted .pure

-- The kinds of token that may follow a parameter.
def FollowsParam (k : TokenKind) : Prop := FollowsType k ∧ k ≠ .colon ∧ k ≠ .equal ∧ k ≠ .ident

theorem takes_param (htype : Takes deep type T FollowsType) :
    Takes deep (param type) (IsParam T) FollowsParam := by
  have hhint : Takes deep (hint? type) (Marked .colon T) fun k => FollowsType k ∧ k ≠ .colon :=
    takes_marked htype
  intro span p h rest hrest
  have hafter : FollowsType (rest.headD Token.stop).kind ∧
    (rest.headD Token.stop).kind ≠ .colon := ⟨hrest.1, hrest.2.1⟩
  cases h with
  | ellipsis ht => exact .accepted ht .pure
  | doubleStar hsign hname hspan =>
      refine .refused (by simp [hsign]) (.accepted hsign (.expected hname ?_))
      exact .bind (hhint hspan rest hafter) .pure
  | star hsign hname hspan =>
      refine .refused (by simp [hsign]) (.refused (by simp [hsign]) (.accepted hsign (.peeked ?_)))
      rw [if_pos hname]
      exact .taken (.bind (hhint hspan rest hafter) .pure)
  | bareStar hsign =>
      refine .refused (by simp [hsign]) (.refused (by simp [hsign]) (.accepted hsign ?_))
      refine Ends.looked ?_
      change Ends deep (if (rest.headD Token.stop).kind = .ident then _ else _) rest _ rest
      rw [if_neg hrest.2.2.2]
      exact .pure
  | @ordinary name span value hint default hname hspan hvalue =>
      have hfollow : FollowsType ((value ++ rest).headD Token.stop).kind ∧
          ((value ++ rest).headD Token.stop).kind ≠ .colon :=
        hvalue.head (P := fun k => FollowsType k ∧ k ≠ .colon)
          ⟨by simp [FollowsType, FollowsAtom], by simp⟩ hafter
      rw [List.append_assoc, List.cons_append]
      refine .refused (by simp [hname]) (.refused (by simp [hname]) (.refused (by simp [hname]) ?_))
      refine .expected hname (.bind (hhint hspan _ hfollow) ?_)
      obtain ⟨rfl, rfl⟩ | ⟨equal, inner, e, hequal, hinner, rfl, rfl⟩ := hvalue
      · exact .refused hrest.2.2.1 .pure
      · exact .accepted hequal (.bind (takes_defaultValue hinner rest hrest.1.2.1) .pure)

theorem takes_params (htype : Takes deep type T FollowsType) :
    Takes deep (params type) (Closed .rightParen (ListedOrNone (IsParam T))) fun _ => True :=
  .itemsOrNone (takes_param htype) (by simp [FollowsParam, FollowsType, FollowsAtom])
    (by simp [FollowsParam, FollowsType, FollowsAtom]) (by simp) begins_isParam

theorem takes_decorator : Takes deep decorator (Closed .newline IsDotted) fun _ => True := by
  rintro _ text ⟨name, newline, rfl, hname, hnewline⟩ rest -
  rw [List.append_assoc]
  exact .bind (takes_dottedName hname _ (by simp [hnewline])) (.expected hnewline .pure)

theorem takes_decorators :
    Takes deep (repeatUntil (do return !(← accept .atSign)) decorator) AreDecorators
      (· ≠ .atSign) := by
  refine .repeatUntil takes_decorator ?_ ?_ (fun _ => IsToken.ne_nil) fun _ _ _ _ _ => trivial
  · rintro _ span a ⟨t, ht, rfl⟩ - rest
    have haccept : accept .atSign (t :: (span ++ rest)) = .ok true (span ++ rest) := by
      simp [accept, ht]
    exact bind_of_ok haccept
  · rintro _ rfl rest hrest
    exact bind_of_ok (accept_refuses hrest)

-- The lines of a body. There are none without a colon.
def maybeBody (type : Parser Expr) : Parser (List BodyLine) := do
  if ← accept .newline then return []
  let _ ← expect .colon
  bodyLines type

theorem defBody_eq (type : Parser Expr) : defBody type = (do
    if ← accept .kwPythonCode then
      let _ ← expect .newline
      return .external
    let _ ← expect .leftParen
    let params ← params type
    let returns ← returnType? type
    let lines ← maybeBody type
    return .declared params returns (lines.filterMap BodyLine.raised?)
      (lines.filterMap BodyLine.mutated?)) := by
  have hmerge : ∀ (f : List BodyLine → Parser DefBody), (do
      if ← accept .newline then
        let lines ← pure []
        f lines
      else
        let _ ← expect .colon
        let lines ← bodyLines type
        f lines) = maybeBody type >>= f := by
    intro f
    rw [maybeBody, bind_assoc]
    refine bind_congr fun b => ?_
    cases b <;> simp [bind_assoc]
  unfold defBody
  simp only [← hmerge]

end

theorem run_of_takes {α : Type} {p : Parser α} {R : List Token → α → Prop}
    {follow : TokenKind → Prop} (hp : Takes False p R follow) {span rest : List Token} {a : α}
    (h : R span a) (hrest : follow (rest.headD Token.stop).kind) :
    p (span ++ rest) = .ok a rest := by
  obtain hok | ⟨hfalse, -⟩ := hp h rest hrest
  · exact hok
  · exact hfalse.elim

-- A header leaves the rest of its definition to the body.
theorem definition_header {budget : Nat} {span tokens : List Token} {h : Header}
    (hheader : IsHeader (IsType budget) span h)
    (htokens : (tokens.headD Token.stop).kind = .newline ∨
      (tokens.headD Token.stop).kind = .colon) :
    definition (typeExpr budget) (span ++ tokens) = (do
      let lines ← maybeBody (typeExpr budget)
      return Stmt.definition h.place ⟨h.name, h.decorators, .declared h.params h.returns
        (lines.filterMap BodyLine.raised?) (lines.filterMap BodyLine.mutated?)⟩) tokens := by
  obtain ⟨marks, params, returns, word, name, left, hmarks, hword, hplace, hname, hnamed, hleft,
    hparams, hreturns, rfl⟩ := hheader
  have htype : Takes False (typeExpr budget) (IsType budget) FollowsType :=
    takes_typeExpr budget budget (Nat.lt_irrefl _)
  have hreturn : Takes False (returnType? (typeExpr budget)) (Marked .arrow (IsType budget))
      fun k => FollowsType k ∧ k ≠ .arrow := takes_marked htype
  have hfollow : FollowsType (tokens.headD Token.stop).kind ∧
      (tokens.headD Token.stop).kind ≠ .arrow := by
    obtain hk | hk := htokens <;> rw [hk] <;> simp [FollowsType, FollowsAtom]
  have hsplit : marks ++ word :: name :: left :: (params ++ returns) ++ tokens =
      marks ++ (word :: name :: left :: (params ++ (returns ++ tokens))) := by simp
  have hexpect : ∀ {kind : TokenKind} {t : Token} {rest : List Token}, t.kind = kind →
      expect kind (t :: rest) = .ok t rest := by
    intro kind t rest ht
    simp [expect, peek, peekAt, accept, ht, Bind.bind, EStateM.bind, Pure.pure, EStateM.pure]
  have hbody : defBody (typeExpr budget) (left :: (params ++ (returns ++ tokens))) = (do
      let lines ← maybeBody (typeExpr budget)
      return DefBody.declared h.params h.returns (lines.filterMap BodyLine.raised?)
        (lines.filterMap BodyLine.mutated?)) tokens := by
    rw [defBody_eq]
    refine (bind_of_ok (accept_refuses (by simp [hleft]))).trans ?_
    refine (bind_of_ok (hexpect hleft)).trans ?_
    refine (bind_of_ok (run_of_takes (takes_params htype) hparams trivial)).trans ?_
    exact bind_of_ok (run_of_takes hreturn hreturns hfollow)
  rw [hsplit, hplace, hnamed, definition]
  refine (bind_of_ok (run_of_takes takes_decorators hmarks (by simp [hword]))).trans ?_
  refine (bind_of_ok (hexpect hword)).trans ((bind_of_ok (hexpect hname)).trans ?_)
  have hafter : ∀ f : DefBody → Parser Stmt, (defBody (typeExpr budget) >>= f)
      (left :: (params ++ (returns ++ tokens))) = ((do
        let lines ← maybeBody (typeExpr budget)
        return DefBody.declared h.params h.returns (lines.filterMap BodyLine.raised?)
          (lines.filterMap BodyLine.mutated?)) >>= f) tokens := by
    intro f
    simp only [Bind.bind, EStateM.bind, hbody]
  rw [hafter, bind_assoc]
  simp only [pure_bind]

section

variable {α : Type} {kind : TokenKind} {p : Parser α} {R : List Token → α → Prop}
  {type : Parser Expr} {T : List Token → Expr → Prop}

theorem sound_marked (hp : Sound p R) : Sound (do
      if ← accept kind then return some (← p)
      return none : Parser (Option α)) (Marked kind R) := by
  intro tokens a rest h
  obtain ⟨t, middle, ht, rfl, hsome⟩ | hnone := accept_bind_ok h
  · have hinner : (p >>= _) middle = .ok a rest := hsome
    obtain ⟨b, after, hb, hpure⟩ := bind_ok hinner
    obtain ⟨rfl, rfl⟩ := (EStateM.Result.ok.injEq ..).mp hpure
    obtain ⟨span, rfl, hspan⟩ := hp hb
    exact ⟨t :: span, rfl, .some ht hspan⟩
  · obtain ⟨rfl, rfl⟩ := (EStateM.Result.ok.injEq ..).mp hnone
    exact ⟨[], rfl, .none⟩

-- The number that is read after the minus sign, or without one.
theorem numeral_ok (negative : Bool) {tokens rest : List Token} {e : Expr} (h : (do
      let token ← peek
      match token.kind with
      | .int =>
          match intLiteral? token.text with
          | some value =>
              let _ ← next
              return .int (if negative then -value else value)
          | none => unexpected []
      | .float =>
          match floatLiteral? token.text with
          | some value =>
              let _ ← next
              return .float (if negative then value.neg else value)
          | none => unexpected []
      | _ => unexpected [.int] : Parser Expr) tokens = .ok e rest) :
    ∃ t value opposite, tokens = t :: rest ∧ IsNumeral t value opposite ∧
      e = if negative then opposite else value := by
  obtain ⟨q, hq, hrun⟩ := peek_bind_ok h
  split at hq
  · rename_i hint
    obtain ⟨t, more, rfl, ht⟩ := head_of_kind hint (by simp)
    rw [List.headD_cons] at hq
    split at hq
    · rename_i value hvalue
      subst hq
      obtain ⟨rfl, rfl⟩ := (EStateM.Result.ok.injEq ..).mp hrun
      exact ⟨t, _, _, rfl, .int ht hvalue, by cases negative <;> rfl⟩
    · subst hq
      exact absurd hrun unexpected_ne_ok
  · rename_i hfloat
    obtain ⟨t, more, rfl, ht⟩ := head_of_kind hfloat (by simp)
    rw [List.headD_cons] at hq
    split at hq
    · rename_i value hvalue
      subst hq
      obtain ⟨rfl, rfl⟩ := (EStateM.Result.ok.injEq ..).mp hrun
      exact ⟨t, _, _, rfl, .float ht hvalue, by cases negative <;> rfl⟩
    · subst hq
      exact absurd hrun unexpected_ne_ok
  · subst hq
    exact absurd hrun unexpected_ne_ok

theorem sound_signedNumber : Sound signedNumber IsSigned := by
  intro tokens e rest h
  obtain ⟨minus, middle, hminus, rfl, hnegative⟩ | hplain := accept_bind_ok h
  · obtain ⟨t, value, opposite, rfl, hnumeral, rfl⟩ := numeral_ok true hnegative
    exact ⟨[minus, t], rfl, .negative hminus hnumeral⟩
  · obtain ⟨t, value, opposite, rfl, hnumeral, rfl⟩ := numeral_ok false hplain
    exact ⟨[t], rfl, .plain hnumeral⟩

theorem sound_defaultValue : Sound defaultValue IsDefaultValue := by
  intro tokens e rest h
  have hnumber : signedNumber tokens = .ok e rest →
      ∃ span, tokens = span ++ rest ∧ IsDefaultValue span e := by
    intro hsigned
    obtain ⟨span, rfl, hspan⟩ := sound_signedNumber hsigned
    exact ⟨span, rfl, .number hspan⟩
  obtain ⟨q, hq, hrun⟩ := peek_bind_ok h
  split at hq
  · subst hq
    exact hnumber hrun
  · subst hq
    exact hnumber hrun
  · subst hq
    exact hnumber hrun
  · rename_i hbool
    subst hq
    obtain ⟨t, more, rfl, ht⟩ := head_of_kind hbool (by simp)
    obtain ⟨rfl, rfl⟩ := (EStateM.Result.ok.injEq ..).mp hrun
    exact ⟨[t], rfl, .bool ht⟩
  · rename_i hellipsis
    subst hq
    obtain ⟨t, more, rfl, ht⟩ := head_of_kind hellipsis (by simp)
    obtain ⟨rfl, rfl⟩ := (EStateM.Result.ok.injEq ..).mp hrun
    exact ⟨[t], rfl, .ellipsis ht⟩
  · rename_i hstring
    subst hq
    obtain ⟨t, more, rfl, ht⟩ := head_of_kind hstring (by simp)
    obtain ⟨rfl, rfl⟩ := (EStateM.Result.ok.injEq ..).mp hrun
    exact ⟨[t], rfl, .string ht⟩
  · subst hq
    have hdotted : (dottedName >>= _) tokens = .ok e rest := hrun
    obtain ⟨text, middle, hname, hpure⟩ := bind_ok hdotted
    obtain ⟨rfl, rfl⟩ := (EStateM.Result.ok.injEq ..).mp hpure
    obtain ⟨span, rfl, hspan⟩ := sound_dottedName hname
    exact ⟨span, rfl, .name hspan⟩
  · subst hq
    exact absurd hrun unexpected_ne_ok

theorem sound_param (htype : Sound type T) : Sound (param type) (IsParam T) := by
  have hhint : Sound (hint? type) (Marked .colon T) := sound_marked htype
  intro tokens p rest h
  obtain ⟨t, middle, ht, rfl, hpure⟩ | h1 := accept_bind_ok h
  · obtain ⟨rfl, rfl⟩ := (EStateM.Result.ok.injEq ..).mp hpure
    exact ⟨[t], rfl, .ellipsis ht⟩
  obtain ⟨sign, middle, hsign, rfl, hstars⟩ | h2 := accept_bind_ok h1
  · obtain ⟨name, after, hname, rfl, hrest⟩ := expect_bind_ok hstars
    obtain ⟨hint, last, hrun, hpure⟩ := bind_ok hrest
    obtain ⟨rfl, rfl⟩ := (EStateM.Result.ok.injEq ..).mp hpure
    obtain ⟨span, rfl, hspan⟩ := hhint hrun
    exact ⟨sign :: name :: span, rfl, .doubleStar hsign hname hspan⟩
  obtain ⟨sign, middle, hsign, rfl, hpeek⟩ | h3 := accept_bind_ok h2
  · obtain ⟨q, hq, hrest⟩ := peek_bind_ok hpeek
    split at hq
    · rename_i hident
      subst hq
      obtain ⟨name, after, rfl, hname⟩ := head_of_kind hident (by simp)
      have hafter : (hint? type >>= _) after = .ok p rest := hrest
      obtain ⟨hint, last, hrun, hpure⟩ := bind_ok hafter
      obtain ⟨rfl, rfl⟩ := (EStateM.Result.ok.injEq ..).mp hpure
      obtain ⟨span, rfl, hspan⟩ := hhint hrun
      exact ⟨sign :: name :: span, rfl, .star hsign hname hspan⟩
    · subst hq
      obtain ⟨rfl, rfl⟩ := (EStateM.Result.ok.injEq ..).mp hrest
      exact ⟨[sign], rfl, .bareStar hsign⟩
  obtain ⟨name, after, hname, rfl, h4⟩ := expect_bind_ok h3
  obtain ⟨hint, last, hrun, h5⟩ := bind_ok h4
  obtain ⟨span, rfl, hspan⟩ := hhint hrun
  obtain ⟨equal, middle, hequal, rfl, hdefault⟩ | hpure := accept_bind_ok h5
  · have hafter : (defaultValue >>= _) middle = .ok p rest := hdefault
    obtain ⟨e, last, hrun, hpure⟩ := bind_ok hafter
    obtain ⟨rfl, rfl⟩ := (EStateM.Result.ok.injEq ..).mp hpure
    obtain ⟨value, rfl, hvalue⟩ := sound_defaultValue hrun
    refine ⟨name :: span ++ equal :: value, by simp, ?_⟩
    exact .ordinary hname hspan (.some hequal hvalue)
  · obtain ⟨rfl, rfl⟩ := (EStateM.Result.ok.injEq ..).mp hpure
    refine ⟨name :: span ++ [], by simp, ?_⟩
    exact .ordinary hname hspan .none

theorem sound_params (htype : Sound type T) :
    Sound (params type) (Closed .rightParen (ListedOrNone (IsParam T))) :=
  .itemsOrNone (sound_param htype)

theorem sound_decorator : Sound decorator (Closed .newline IsDotted) := by
  intro tokens text rest h
  obtain ⟨name, middle, hname, hafter⟩ := bind_ok h
  obtain ⟨span, rfl, hspan⟩ := sound_dottedName hname
  obtain ⟨newline, last, hnewline, rfl, hpure⟩ := expect_bind_ok hafter
  obtain ⟨rfl, rfl⟩ := (EStateM.Result.ok.injEq ..).mp hpure
  exact ⟨span ++ [newline], by simp, span, newline, rfl, hspan, hnewline⟩

theorem sound_decorators :
    Sound (repeatUntil (do return !(← accept .atSign)) decorator) AreDecorators := by
  refine .repeatUntil sound_decorator (fun tokens rest hstop => ?_) (fun tokens rest hstop => ?_)
    fun _ => IsToken.ne_nil
  · obtain ⟨-, hlead⟩ | ⟨hb, -⟩ := separator_stop hstop
    · exact hlead
    · cases hb
  · obtain ⟨hb, -⟩ | ⟨-, rfl⟩ := separator_stop hstop
    · cases hb
    · exact ⟨[], rfl, rfl⟩

-- A definition is one in native code, or a header with the lines of its body.
theorem definition_ok (htype : Sound type T) {tokens rest : List Token} {s : Stmt}
    (h : definition type tokens = .ok s rest) :
    (∃ place name decorators, s = .definition place ⟨name, decorators, .external⟩) ∨
      ∃ span after header lines, tokens = span ++ after ∧ IsHeader T span header ∧
        maybeBody type after = .ok lines rest ∧
        s = .definition header.place ⟨header.name, header.decorators, .declared header.params
          header.returns (lines.filterMap BodyLine.raised?)
          (lines.filterMap BodyLine.mutated?)⟩ := by
  have hreturn : Sound (returnType? type) (Marked .arrow T) := sound_marked htype
  rw [definition, defBody_eq] at h
  obtain ⟨decorators, middle, hdecorators, h1⟩ := bind_ok h
  obtain ⟨marks, rfl, hmarks⟩ := sound_decorators hdecorators
  obtain ⟨word, middle, hword, rfl, h2⟩ := expect_bind_ok h1
  obtain ⟨name, middle, hname, rfl, h3⟩ := expect_bind_ok h2
  obtain ⟨body, last, hbody, hpure⟩ := bind_ok h3
  obtain ⟨rfl, rfl⟩ := (EStateM.Result.ok.injEq ..).mp hpure
  obtain ⟨_, middle, -, -, hexternal⟩ | h4 := accept_bind_ok hbody
  · obtain ⟨_, _, -, -, hpure⟩ := expect_bind_ok hexternal
    obtain ⟨rfl, -⟩ := (EStateM.Result.ok.injEq ..).mp hpure
    exact .inl ⟨_, _, _, rfl⟩
  · obtain ⟨left, middle, hleft, rfl, h5⟩ := expect_bind_ok h4
    obtain ⟨params, middle, hrun, h6⟩ := bind_ok h5
    obtain ⟨paramSpan, rfl, hparams⟩ := sound_params htype hrun
    obtain ⟨returns, middle, hrun, h7⟩ := bind_ok h6
    obtain ⟨returnSpan, rfl, hreturns⟩ := hreturn hrun
    obtain ⟨lines, _, hlines, hpure⟩ := bind_ok h7
    obtain ⟨rfl, rfl⟩ := (EStateM.Result.ok.injEq ..).mp hpure
    refine .inr ⟨marks ++ word :: name :: left :: (paramSpan ++ returnSpan), middle,
      ⟨word.place, decorators, name.text, params, returns⟩, lines, by simp, ?_,
      hlines, rfl⟩
    exact ⟨marks, paramSpan, returnSpan, word, name, left, hmarks, hword, rfl, hname, rfl, hleft,
      hparams, hreturns, rfl⟩

end

end TypeStub.Grammar
