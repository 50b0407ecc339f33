import TypeStub.Grammar.Statement
import TypeStub.Proofs.Grammar.HeaderExact

-- Definitions whose body adds nothing: which bodies those are does not depend on the header.
namespace TypeStub.Grammar

open TypeStub.Parser

section

variable {β : Type} {deep : Prop} {tokens rest : List Token} {b : β} {type : Parser Expr}

theorem takes_ignoreComment : Takes deep ignoreComment (fun span (_ : Unit) => IsIgnore span)
    (· ≠ .leftBracket) := by
  intro span _ h rest hrest
  cases h with
  | plain hcomment hword htext =>
      refine .expected hcomment (.peeked ?_)
      rw [if_pos ⟨hword, htext⟩]
      exact .taken (.refused hrest .pure)
  | @codes comment word left right codes hcomment hword htext hleft hcodes hright =>
      have hskip : skipCodes (codes ++ right :: rest) = .ok () (right :: rest) := by
        have hdrop : (codes ++ right :: rest).dropWhile (fun token =>
            token.kind == .ident || token.kind == .comma || token.kind == .minus) =
            right :: rest := by
          rw [List.dropWhile_append_of_pos]
          · simp [hright]
          · intro t ht
            obtain hk | hk | hk := hcodes t ht <;> simp [hk]
        simp only [skipCodes, hdrop]
      have htokens : comment :: word :: left :: codes ++ [right] ++ rest =
          comment :: word :: left :: (codes ++ right :: rest) := by simp
      rw [htokens]
      refine .expected hcomment (.peeked ?_)
      rw [if_pos ⟨hword, htext⟩]
      exact .taken (.accepted hleft (.bind (.inl hskip) (.expected hright .pure)))

-- What follows an ignore comment that may be missing is none itself.
theorem ignoreCommentIfAny_run {span : List Token} (h : MaybeIgnore span)
    (hnone : span = [] → (tokens.headD Token.stop).kind ≠ .typeComment)
    (hne : (tokens.headD Token.stop).kind ≠ .leftBracket) :
    ignoreCommentIfAny (span ++ tokens) = .ok () tokens := by
  have hpeek : peek (span ++ tokens) =
      .ok ((span ++ tokens).headD Token.stop) (span ++ tokens) := by
    cases span ++ tokens <;> rfl
  rw [ignoreCommentIfAny, bind_of_ok hpeek]
  obtain rfl | hignore := h
  · rw [List.nil_append, if_neg (hnone rfl)]
    rfl
  · obtain ⟨t, more, hspan, ht⟩ := hignore.begins
    have hhead : ((span ++ tokens).headD Token.stop).kind = .typeComment := by
      rw [hspan]
      exact ht
    rw [if_pos hhead]
    exact run_of_takes takes_ignoreComment hignore hne

theorem Ends.ignoreCommentIfAny {q : Parser β} {span : List Token} (h : MaybeIgnore span)
    (hnone : span = [] → (tokens.headD Token.stop).kind ≠ .typeComment)
    (hne : (tokens.headD Token.stop).kind ≠ .leftBracket) (hq : Ends deep q tokens b rest) :
    Ends deep (Grammar.ignoreCommentIfAny >>= fun _ => q) (span ++ tokens) b rest :=
  .bind (.inl (ignoreCommentIfAny_run h hnone hne)) hq

theorem takes_bodyLine :
    Takes deep (bodyLine type) (fun span line => IsFiller span ∧ line = .nothing)
      fun _ => True := by
  rintro span _ ⟨hfiller, rfl⟩ rest -
  obtain ⟨t, newline, ignore, ht, hignore, hnewline, rfl⟩ |
      ⟨ignore, newline, hignore, hnewline, rfl⟩ :=
    hfiller
  · have hend : Ends deep (ignoreCommentIfAny >>= fun _ => expect .newline >>= fun _ =>
        Pure.pure BodyLine.nothing) (ignore ++ newline :: rest) .nothing rest :=
      Ends.ignoreCommentIfAny hignore (by simp [hnewline]) (by simp [hnewline])
        (.expected hnewline .pure)
    have htokens : t :: (ignore ++ [newline]) ++ rest = t :: (ignore ++ newline :: rest) := by simp
    rw [htokens]
    refine .peeked ?_
    obtain ht | ht | ht := ht <;> rw [ht] <;> exact .taken (.bind .pure hend)
  · have hend : Ends deep (ignoreCommentIfAny >>= fun _ => expect .newline >>= fun _ =>
        Pure.pure BodyLine.nothing) (ignore ++ newline :: rest) .nothing rest :=
      Ends.ignoreCommentIfAny (.inr hignore) (by simp [hnewline]) (by simp [hnewline])
        (.expected hnewline .pure)
    rw [List.append_assoc]
    obtain ⟨t, more, rfl, ht⟩ := hignore.begins
    refine .peeked ?_
    rw [ht]
    exact .bind .pure hend

-- The lines of a block that adds nothing, up to the dedent.
theorem fillers_repeat {fillers : List (List Token)} (h : ∀ filler ∈ fillers, IsFiller filler)
    {dedent : Token} (hd : dedent.kind = .dedent) (rest : List Token) :
    repeatUntil (accept .dedent) (bodyLine type) (fillers.flatten ++ dedent :: rest) =
      .ok (fillers.map fun _ => .nothing) rest := by
  induction fillers with
  | nil =>
      have hstop : accept .dedent (dedent :: rest) = .ok true rest := by simp [accept, hd]
      rw [List.flatten_nil, List.nil_append, repeatUntil, hstop]
      rfl
  | cons filler more ih =>
      obtain ⟨hfiller, hmore⟩ := List.forall_mem_cons.mp h
      have hline : Ends False (bodyLine type) (filler ++ (more.flatten ++ dedent :: rest)) .nothing
          (more.flatten ++ dedent :: rest) := takes_bodyLine ⟨hfiller, rfl⟩ _ trivial
      obtain hline | ⟨hfalse, -⟩ := hline
      · obtain ⟨t, after, rfl, ht⟩ := hfiller.begins
        have hstop : accept .dedent (t :: after ++ (more.flatten ++ dedent :: rest)) =
            .ok false (t :: after ++ (more.flatten ++ dedent :: rest)) := by
          refine accept_refuses fun hk => ?_
          rw [show t.kind = .dedent from hk] at ht
          simp at ht
        have hshorter : (more.flatten ++ dedent :: rest).length <
            (t :: after ++ (more.flatten ++ dedent :: rest)).length := by
          simp only [List.length_append, List.length_cons]
          omega
        rw [List.flatten_cons, List.append_assoc, repeatUntil, hstop]
        simp only [hline, if_pos hshorter, ih hmore, List.map_cons]
      · exact hfalse.elim

theorem takes_emptyBody {span : List Token} (h : IsEmptyBody span) (rest : List Token) :
    ∃ lines, Ends deep (maybeBody type) (span ++ rest) lines rest ∧
      ∀ line ∈ lines, line = .nothing := by
  cases h with
  | none hnewline => exact ⟨[], .accepted hnewline .pure, by simp⟩
  | @line colon filler hcolon hfiller =>
      have hline : Ends deep (bodyLine type) (filler ++ rest) .nothing rest :=
        takes_bodyLine ⟨.inl hfiller, rfl⟩ rest trivial
      obtain ⟨t, more, rfl, ht⟩ := hfiller.begins
      refine ⟨[.nothing], .refused (by simp [hcolon]) (.expected hcolon ?_), by simp⟩
      show Ends deep (bodyLines type) ([] ++ (t :: more ++ rest)) _ rest
      refine Ends.ignoreCommentIfAny (.inl rfl) (fun _ => ?_) ?_ (.refused ?_ (.bind hline .pure))
      · obtain ht | ht | ht := ht <;> simp [ht]
      · obtain ht | ht | ht := ht <;> simp [ht]
      · obtain ht | ht | ht := ht <;> simp [ht]
  | @ignoredLine colon ignore filler hcolon hignore hfiller =>
      have hline : Ends deep (bodyLine type) (filler ++ rest) .nothing rest :=
        takes_bodyLine ⟨hfiller, rfl⟩ rest trivial
      obtain ⟨t, more, rfl, ht⟩ := hfiller.begins
      obtain ⟨_, _, hfirst, hcomment⟩ := hignore.begins
      refine ⟨[.nothing], .refused (by simp [hcolon]) (.expected hcolon ?_), by simp⟩
      show Ends deep (bodyLines type) ((ignore ++ (t :: more)) ++ rest) _ rest
      rw [List.append_assoc]
      refine Ends.ignoreCommentIfAny (.inr hignore) (fun hnil => ?_) ?_
        (.refused ?_ (.bind hline .pure))
      · rw [hnil] at hfirst
        cases hfirst
      · rintro hk
        rw [show t.kind = .leftBracket from hk] at ht
        simp at ht
      · rintro hk
        rw [show t.kind = .newline from hk] at ht
        simp at ht
  | @block colon newline indent dedent ignore fillers hcolon hignore hnewline hindent hfillers
      hdedent =>
      refine ⟨fillers.map fun _ => .nothing, .refused (by simp [hcolon]) (.expected hcolon ?_),
        by simp⟩
      have htokens : (ignore ++ newline :: indent :: (fillers.flatten ++ [dedent])) ++ rest =
          ignore ++ newline :: indent :: (fillers.flatten ++ dedent :: rest) := by simp
      show Ends deep (bodyLines type)
        ((ignore ++ newline :: indent :: (fillers.flatten ++ [dedent])) ++ rest) _ rest
      rw [htokens]
      refine Ends.ignoreCommentIfAny hignore (by simp [hnewline]) (by simp [hnewline])
        (.accepted hnewline (.expected hindent (.inl ?_)))
      exact fillers_repeat hfillers hdedent rest

-- A header with a body that adds nothing, read to the end of the body.
theorem definition_emptyBody {budget : Nat} {header body : List Token} {h : Header}
    (hheader : IsHeader (IsType budget) header h) (hbody : IsEmptyBody body) (rest : List Token) :
    definition (typeExpr budget) (header ++ (body ++ rest)) = .ok h.definition rest := by
  have htakes : ∃ lines, Ends False (maybeBody (typeExpr budget)) (body ++ rest) lines rest ∧
      ∀ line ∈ lines, line = .nothing := takes_emptyBody hbody rest
  obtain ⟨lines, hlines, hnothing⟩ := htakes
  have hraised : lines.filterMap BodyLine.raised? = [] :=
    List.filterMap_eq_nil_iff.mpr fun line hline => by rw [hnothing line hline]; rfl
  have hmutated : lines.filterMap BodyLine.mutated? = [] :=
    List.filterMap_eq_nil_iff.mpr fun line hline => by rw [hnothing line hline]; rfl
  obtain hlines | ⟨hfalse, -⟩ := hlines
  · obtain ⟨t, more, rfl, ht⟩ := hbody.begins
    have hhead : ((t :: more ++ rest).headD Token.stop).kind = .newline ∨
        ((t :: more ++ rest).headD Token.stop).kind = .colon := ht
    rw [definition_header hheader hhead, bind_of_ok hlines, hraised,
      hmutated]
    rfl
  · exact hfalse.elim

end

section

variable {type : Parser Expr} {tokens rest : List Token}

theorem ignoreComment_ok (h : ignoreComment tokens = .ok () rest) :
    ∃ span, tokens = span ++ rest ∧ IsIgnore span := by
  obtain ⟨comment, middle, hcomment, rfl, h1⟩ := expect_bind_ok h
  obtain ⟨q, hq, h2⟩ := peek_bind_ok h1
  split at hq
  · rename_i hword
    subst hq
    obtain ⟨word, more, rfl, hkind⟩ := head_of_kind hword.1 (by simp)
    have hafter : (accept .leftBracket >>= _) more = .ok () rest := h2
    obtain ⟨left, middle, hleft, rfl, h3⟩ | hpure := accept_bind_ok hafter
    · have hskip : (skipCodes >>= _) middle = .ok () rest := h3
      obtain ⟨_, last, hcodes, h4⟩ := bind_ok hskip
      obtain ⟨right, after, hright, hlast, hpure⟩ := expect_bind_ok h4
      obtain ⟨-, rfl⟩ := (EStateM.Result.ok.injEq ..).mp hpure
      have hsplit : ∃ codes, middle = codes ++ right :: after ∧
          ∀ t ∈ codes, t.kind = .ident ∨ t.kind = .comma ∨ t.kind = .minus := by
        obtain ⟨-, hdrop⟩ := (EStateM.Result.ok.injEq ..).mp hcodes
        rw [hlast] at hdrop
        refine ⟨_, (hdrop ▸ List.takeWhile_append_dropWhile).symm, fun t ht => ?_⟩
        have hcode := List.all_eq_true.mp List.all_takeWhile t ht
        simpa [or_assoc] using hcode
      obtain ⟨codes, rfl, hkinds⟩ := hsplit
      refine ⟨comment :: word :: left :: codes ++ [right], by simp, ?_⟩
      exact .codes hcomment hkind hword.2 hleft hkinds hright
    · obtain ⟨-, rfl⟩ := (EStateM.Result.ok.injEq ..).mp hpure
      exact ⟨[comment, word], rfl, .plain hcomment hkind hword.2⟩
  · subst hq
    obtain ⟨_, _, hfail, -⟩ := bind_ok h2
    exact absurd hfail unexpected_ne_ok

theorem ignoreCommentIfAny_ok (h : ignoreCommentIfAny tokens = .ok () rest) :
    ∃ span, tokens = span ++ rest ∧ MaybeIgnore span ∧
      (span = [] → (rest.headD Token.stop).kind ≠ .typeComment) := by
  obtain ⟨q, hq, hrun⟩ := peek_bind_ok h
  split at hq
  · subst hq
    obtain ⟨span, rfl, hspan⟩ := ignoreComment_ok hrun
    refine ⟨span, rfl, .inr hspan, fun hnil => ?_⟩
    obtain ⟨_, _, hcons, -⟩ := hspan.begins
    rw [hnil] at hcons
    cases hcons
  · rename_i hno
    subst hq
    obtain ⟨-, rfl⟩ := (EStateM.Result.ok.injEq ..).mp hrun
    exact ⟨[], rfl, .inl rfl, fun _ => hno⟩

-- The end of a line of a body, after what the line says.
theorem lineEnd_ok {line last : BodyLine} (h : (do
      ignoreCommentIfAny
      let _ ← expect .newline
      return line : Parser BodyLine) tokens = .ok last rest) :
    last = line ∧ ∃ ignore newline, tokens = ignore ++ newline :: rest ∧ MaybeIgnore ignore ∧
      newline.kind = .newline := by
  obtain ⟨_, middle, hignore, h1⟩ := bind_ok h
  obtain ⟨ignore, rfl, hspan, -⟩ := ignoreCommentIfAny_ok hignore
  obtain ⟨newline, after, hnewline, rfl, hpure⟩ := expect_bind_ok h1
  obtain ⟨rfl, rfl⟩ := (EStateM.Result.ok.injEq ..).mp hpure
  exact ⟨rfl, ignore, newline, rfl, hspan, hnewline⟩

-- What a line of a body takes. Lines that add nothing are fillers.
theorem bodyLine_ok {line : BodyLine} (h : bodyLine type tokens = .ok line rest)
    (hline : line = .nothing) : ∃ span, tokens = span ++ rest ∧ IsFiller span := by
  have hword : ∀ {t : Token} {more : List Token},
      t.kind = .ellipsis ∨ t.kind = .kwPass ∨ t.kind = .string → (do
        ignoreCommentIfAny
        let _ ← expect .newline
        return BodyLine.nothing : Parser BodyLine) more = .ok line rest →
      ∃ span, t :: more = span ++ rest ∧ IsFiller span := by
    intro t more ht hend
    obtain ⟨-, ignore, newline, rfl, hignore, hnewline⟩ := lineEnd_ok hend
    exact ⟨t :: (ignore ++ [newline]), by simp,
      .inl ⟨t, newline, ignore, ht, hignore, hnewline, rfl⟩⟩
  obtain ⟨q, hq, hrun⟩ := peek_bind_ok h
  split at hq
  · rename_i hk
    subst hq
    obtain ⟨t, more, rfl, ht⟩ := head_of_kind hk (by simp)
    exact hword (.inl ht) hrun
  · rename_i hk
    subst hq
    obtain ⟨t, more, rfl, ht⟩ := head_of_kind hk (by simp)
    exact hword (.inr (.inl ht)) hrun
  · rename_i hk
    subst hq
    obtain ⟨t, more, rfl, ht⟩ := head_of_kind hk (by simp)
    exact hword (.inr (.inr ht)) hrun
  · rename_i hk
    subst hq
    obtain ⟨-, ignore, newline, rfl, hignore, hnewline⟩ := lineEnd_ok hrun
    obtain rfl | hignore := hignore
    · rw [List.nil_append, List.headD_cons, hnewline] at hk
      cases hk
    · exact ⟨ignore ++ [newline], by simp, .inr ⟨ignore, newline, hignore, hnewline, rfl⟩⟩
  · rename_i hk
    subst hq
    obtain ⟨t, more, rfl, -⟩ := head_of_kind hk (by simp)
    have h1 : (type >>= _) more = .ok line rest := hrun
    obtain ⟨raised, middle, -, h2⟩ := bind_ok h1
    have hraises : line = .raises raised := by
      obtain ⟨_, _, -, -, h3⟩ | h3 := accept_bind_ok h2
      · obtain ⟨_, _, -, -, hend⟩ := expect_bind_ok h3
        exact (lineEnd_ok hend).1
      · exact (lineEnd_ok h3).1
    rw [hline] at hraises
    cases hraises
  · rename_i hk
    subst hq
    obtain ⟨t, more, rfl, -⟩ := head_of_kind hk (by simp)
    have h1 : (expect .colonEqual >>= _) more = .ok line rest := hrun
    obtain ⟨_, _, -, -, h2⟩ := expect_bind_ok h1
    obtain ⟨mutated, _, -, hend⟩ := bind_ok h2
    have hmutates := (lineEnd_ok hend).1
    rw [hline] at hmutates
    cases hmutates
  · subst hq
    obtain ⟨_, _, hfail, -⟩ := bind_ok hrun
    exact absurd hfail unexpected_ne_ok

theorem accept_ok {kind : TokenKind} {taken : Bool} (h : accept kind tokens = .ok taken rest) :
    taken = true ∧ (∃ t, t.kind = kind ∧ tokens = t :: rest) ∨ taken = false ∧ tokens = rest := by
  cases tokens with
  | nil =>
      obtain ⟨rfl, rfl⟩ := (EStateM.Result.ok.injEq ..).mp h
      exact .inr ⟨rfl, rfl⟩
  | cons t more =>
      rw [accept] at h
      split at h
      · rename_i hk
        obtain ⟨rfl, rfl⟩ := (EStateM.Result.ok.injEq ..).mp h
        exact .inl ⟨rfl, t, hk, rfl⟩
      · obtain ⟨rfl, rfl⟩ := (EStateM.Result.ok.injEq ..).mp h
        exact .inr ⟨rfl, rfl⟩

-- The lines of a block, when each adds nothing.
theorem block_ok {lines : List BodyLine}
    (h : repeatUntil (accept .dedent) (bodyLine type) tokens = .ok lines rest)
    (hlines : ∀ line ∈ lines, line = .nothing) :
    ∃ fillers dedent, tokens = List.flatten fillers ++ dedent :: rest ∧
      (∀ filler ∈ fillers, IsFiller filler) ∧ dedent.kind = .dedent := by
  induction hn : tokens.length using Nat.strongRecOn generalizing tokens lines with
  | ind n ih =>
      rw [repeatUntil] at h
      split at h
      · cases h
      · rename_i middle hstop
        obtain ⟨rfl, rfl⟩ := (EStateM.Result.ok.injEq ..).mp h
        obtain ⟨-, dedent, hdedent, rfl⟩ | ⟨hfalse, -⟩ := accept_ok hstop
        · exact ⟨[], dedent, rfl, by simp, hdedent⟩
        · cases hfalse
      · rename_i middle hstop
        obtain ⟨htrue, -⟩ | ⟨-, rfl⟩ := accept_ok hstop
        · cases htrue
        split at h
        · cases h
        · rename_i line after hrun
          split at h
          · rename_i hshorter
            split at h
            · cases h
            · rename_i more last hmore
              obtain ⟨rfl, rfl⟩ := (EStateM.Result.ok.injEq ..).mp h
              obtain ⟨hline, hrest⟩ := List.forall_mem_cons.mp hlines
              obtain ⟨filler, rfl, hfiller⟩ := bodyLine_ok hrun hline
              obtain ⟨fillers, dedent, rfl, hfillers, hdedent⟩ :=
                ih _ (hn ▸ hshorter) hmore hrest rfl
              exact ⟨filler :: fillers, dedent, by simp, List.forall_mem_cons.mpr
                ⟨hfiller, hfillers⟩, hdedent⟩
          · rename_i hshorter
            obtain ⟨rfl, rfl⟩ := (EStateM.Result.ok.injEq ..).mp h
            obtain ⟨filler, rfl, hfiller⟩ := bodyLine_ok hrun (hlines line List.mem_cons_self)
            obtain ⟨t, more, rfl, -⟩ := hfiller.begins
            simp only [List.length_append, List.length_cons] at hshorter
            omega

theorem emptyBody_ok {lines : List BodyLine} (h : maybeBody type tokens = .ok lines rest)
    (hlines : ∀ line ∈ lines, line = .nothing) :
    ∃ span, tokens = span ++ rest ∧ IsEmptyBody span := by
  obtain ⟨newline, middle, hnewline, rfl, hpure⟩ | h1 := accept_bind_ok h
  · obtain ⟨rfl, rfl⟩ := (EStateM.Result.ok.injEq ..).mp hpure
    exact ⟨[newline], rfl, .none hnewline⟩
  · obtain ⟨colon, middle, hcolon, rfl, h2⟩ := expect_bind_ok h1
    obtain ⟨_, after, hignore, h3⟩ := bind_ok h2
    obtain ⟨ignore, rfl, hspan, hnone⟩ := ignoreCommentIfAny_ok hignore
    obtain ⟨newline, middle, hnewline, rfl, h4⟩ | h4 := accept_bind_ok h3
    · obtain ⟨indent, last, hindent, rfl, h5⟩ := expect_bind_ok h4
      obtain ⟨fillers, dedent, rfl, hfillers, hdedent⟩ := block_ok h5 hlines
      refine ⟨colon :: (ignore ++ newline :: indent :: (fillers.flatten ++ [dedent])), by simp, ?_⟩
      exact .block hcolon hspan hnewline hindent hfillers hdedent
    · have h5 : (bodyLine type >>= _) after = .ok lines rest := h4
      obtain ⟨line, last, hrun, hpure⟩ := bind_ok h5
      obtain ⟨rfl, rfl⟩ := (EStateM.Result.ok.injEq ..).mp hpure
      obtain ⟨filler, rfl, hfiller⟩ := bodyLine_ok hrun (hlines line List.mem_cons_self)
      obtain rfl | hignore := hspan
      · obtain hword | ⟨ignore, newline, hcomment, -, rfl⟩ := hfiller
        · exact ⟨colon :: filler, by simp, .line hcolon hword⟩
        · obtain ⟨t, more, rfl, ht⟩ := hcomment.begins
          exact absurd ht (hnone rfl)
      · exact ⟨colon :: (ignore ++ filler), by simp, .ignoredLine hcolon hignore hfiller⟩

-- A definition adds nothing to a header exactly when its body is an empty one.
theorem definition_empty_iff (budget : Nat) (tokens rest : List Token) (h : Header) :
    definition (typeExpr budget) tokens = .ok h.definition rest ↔
      ∃ header body, tokens = header ++ (body ++ rest) ∧ IsHeader (IsType budget) header h ∧
        IsEmptyBody body := by
  constructor
  · intro hrun
    obtain ⟨place, name, decorators, heq⟩ | ⟨span, after, header, lines, rfl, hheader, hlines,
      heq⟩ := definition_ok (sound_typeExpr budget) hrun
    · simp [Header.definition] at heq
    · obtain ⟨place, decorators, name, params, returns⟩ := h
      obtain ⟨place', decorators', name', params', returns'⟩ := header
      simp only [Header.definition, Stmt.definition.injEq, Def.mk.injEq, DefBody.declared.injEq]
        at heq
      obtain ⟨rfl, rfl, rfl, rfl, rfl, hraises, hmutators⟩ := heq
      have hnothing : ∀ line ∈ lines, line = .nothing := by
        intro line hline
        have hraised := List.filterMap_eq_nil_iff.mp hraises.symm line hline
        have hmutated := List.filterMap_eq_nil_iff.mp hmutators.symm line hline
        cases line with
        | nothing => rfl
        | raises => cases hraised
        | mutates => cases hmutated
      obtain ⟨body, rfl, hbody⟩ := emptyBody_ok hlines hnothing
      exact ⟨span, body, rfl, hheader, hbody⟩
  · rintro ⟨header, body, rfl, hheader, hbody⟩
    exact definition_emptyBody hheader hbody rest

-- What a colon and maybe an ignore comment open has to be a line or an indented block.
theorem definition_noBlock {budget : Nat} {header ignore : List Token} {colon newline : Token}
    {h : Header} (hheader : IsHeader (IsType budget) header h) (hcolon : colon.kind = .colon)
    (hignore : MaybeIgnore ignore) (hnewline : newline.kind = .newline)
    (hrest : (rest.headD Token.stop).kind ≠ .indent) :
    definition (typeExpr budget) (header ++ (colon :: (ignore ++ newline :: rest))) =
      unexpected [.indent] rest := by
  have hexpect : expect .colon (colon :: (ignore ++ newline :: rest)) =
      .ok colon (ignore ++ newline :: rest) := by
    simp [expect, peek, peekAt, accept, hcolon, Bind.bind, EStateM.bind, Pure.pure, EStateM.pure]
  have haccept : accept .newline (newline :: rest) = .ok true rest := by simp [accept, hnewline]
  have hindent : ∀ {α : Type} (f : Token → Parser α), (expect .indent >>= f) rest =
      unexpected [.indent] rest := by
    intro α f
    have hpeek : peek rest = .ok (rest.headD Token.stop) rest := by
      cases rest <;> rfl
    have hfails : expect .indent rest = unexpected [.indent] rest := by
      rw [expect, bind_of_ok hpeek, bind_of_ok (accept_refuses hrest)]
      rfl
    simp only [Bind.bind, EStateM.bind, hfails, unexpected]
  have hbody : maybeBody (typeExpr budget) (colon :: (ignore ++ newline :: rest)) =
      unexpected [.indent] rest := by
    rw [maybeBody, bind_of_ok (accept_refuses (by simp [hcolon]))]
    refine (bind_of_ok hexpect).trans ?_
    rw [bodyLines, bind_of_ok (ignoreCommentIfAny_run hignore (by simp [hnewline])
      (by simp [hnewline])), bind_of_ok haccept]
    exact hindent _
  have hhead : ((colon :: (ignore ++ newline :: rest)).headD Token.stop).kind = .colon := hcolon
  rw [definition_header hheader (.inr hhead)]
  simp only [Bind.bind, EStateM.bind, hbody, unexpected]

end

section

variable {tokens rest : List Token}

theorem statement_definition {budget : Nat} {scope : Scope}
    (h : (tokens.headD Token.stop).kind = .atSign ∨ (tokens.headD Token.stop).kind = .kwDef) :
    statement budget scope tokens = (some <$> definition (typeExpr budget)) tokens := by
  have hwith : ∀ (type condition : Parser Expr) (block : Scope → Parser (List Stmt)),
      statementWith type condition block scope tokens = (some <$> definition type) tokens := by
    intro type condition block
    have hpeek : peek tokens = .ok (tokens.headD Token.stop) tokens := by
      cases tokens <;> rfl
    rw [statementWith, bind_of_ok hpeek]
    obtain h | h := h
    · rw [h]
      rfl
    · rw [h]
      rfl
  cases budget with
  | zero => exact hwith _ _ _
  | succ budget => exact hwith _ _ _

theorem IsHeader.begins {T : List Token → Expr → Prop} {span : List Token} {h : Header}
    (hheader : IsHeader T span h) : ∃ t more, span = t :: more ∧
      (t.kind = .atSign ∨ t.kind = .kwDef) := by
  obtain ⟨marks, params, returns, word, name, left, hmarks, hword, -, -, -, -, -, -, rfl⟩ := hheader
  generalize h.decorators = names at hmarks
  cases hmarks with
  | nil hfinal =>
      subst hfinal
      exact ⟨word, _, rfl, .inr hword⟩
  | cons hlead =>
      obtain ⟨t, ht, rfl⟩ := hlead
      exact ⟨t, _, rfl, .inl ht⟩

-- Where a header stands, a statement is its definition.
theorem statement_header {T : List Token → Expr → Prop} {budget : Nat} {scope : Scope}
    {header : List Token} {h : Header} (hheader : IsHeader T header h) (tokens : List Token) :
    statement budget scope (header ++ tokens) =
      (some <$> definition (typeExpr budget)) (header ++ tokens) := by
  obtain ⟨t, more, rfl, ht⟩ := hheader.begins
  exact statement_definition ht

end

end TypeStub.Grammar
