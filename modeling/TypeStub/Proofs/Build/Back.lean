import TypeStub.Proofs.Build.Signature
import TypeStub.Proofs.Convert.Back
import TypeStub.Proofs.Print.NoneLast
import TypeStub.Proofs.Print.Told

-- What is built from a definition as it is written.
namespace TypeStub

open Print Grammar

namespace Build

section

variable {state : BuildState} {line : Int32}

-- A type is read back from its text under the names of the state.
def Rereads (state : BuildState) (type : Ty) : Prop :=
  type.Canonical ∧ type.ReadsBack state.names

theorem gives_typeAt {type : Ty} (h : Rereads state type) :
    Gives state (typeAt line (expr type)) type.noneLast := by
  have hgives : Gives state.records (Convert.type state.names (expr type)) type.noneLast :=
    Convert.gives_type type h.1 h.2
  unfold Gives typeAt
  rw [hgives]

theorem gives_types {types : List Ty} (h : ∀ type ∈ types, Rereads state type) :
    Gives state ((types.map expr).mapM (typeAt line)) (types.map Ty.noneLast) :=
  .mapM fun type ht => gives_typeAt (h type ht)

theorem gives_paramType {p : Parameter} (h : ∀ type ∈ p.hint?, Rereads state type)
    (isOptional : Bool) :
    Gives state (paramType line ((writtenHint? p.type).map (·.2))
      (if isOptional then some .ellipsis else none)) p.type.noneLast := by
  rw [writtenHint_eq]
  unfold Parameter.hint? at *
  by_cases hobject : p.type.isNamed "object" = true
  · rw [if_pos hobject, Ty.isNamed_iff.mp hobject]
    cases isOptional <;> exact .pure _ _
  · rw [if_neg hobject] at h ⊢
    refine .bind (gives_typeAt (h _ rfl)) ?_
    cases isOptional <;> exact .pure _ _

theorem gives_starType {p : Parameter} (hp : IsStarType "tuple" [] p.type)
    (h : ∀ type ∈ p.element?, Rereads state type) :
    Gives state (starType line ((starHint? p).map (·.2))) p.type.noneLast := by
  rw [starHint_eq]
  unfold Parameter.element? at *
  obtain htype | ⟨element, htype⟩ := hp
  · simp only [htype]
    exact .pure _ _
  · simp only [htype, List.nil_append, List.getLast?_singleton] at h ⊢
    exact .bind (gives_typeAt (h element rfl)) (.pure _ _)

theorem gives_doubleStarType {p : Parameter} (hp : IsStarType "dict" [.named "str"] p.type)
    (h : ∀ type ∈ p.element?, Rereads state type) :
    Gives state (doubleStarType line ((starHint? p).map (·.2))) p.type.noneLast := by
  rw [starHint_eq]
  unfold Parameter.element? at *
  obtain htype | ⟨element, htype⟩ := hp
  · simp only [htype]
    exact .pure _ _
  · simp only [htype, List.getLast?_concat] at h ⊢
    exact .bind (gives_typeAt (h element rfl)) (.pure _ _)

-- Parameters are added as long as nothing closed the list.
def ParamScan.IsOpen (scan : ParamScan) : Prop :=
  scan.sawDoubleStar = none ∧ scan.sawEllipsis = false

variable {scan : ParamScan} (ho : scan.IsOpen)

include ho

theorem gives_ordinary {p : Parameter} (h : ∀ type ∈ p.hint?, Rereads state type)
    (hk : scan.sawStar = p.keywordOnly) :
    Gives state (addParam line scan (paramText p).param)
      { scan with params := scan.params ++ [p.noneLast] } := by
  have htype := @gives_paramType state line p h p.isOptional
  obtain ⟨params, starArgs, starStarArgs, sawStar, bareStar, _, _⟩ := scan
  obtain ⟨name, type, isOptional, keywordOnly⟩ := p
  obtain ⟨rfl, rfl⟩ := ho
  obtain rfl := hk
  refine .bind htype ?_
  cases isOptional <;> exact .pure _ _

theorem gives_star {p : Parameter} (hp : p.IsStar "tuple" [])
    (h : ∀ type ∈ p.element?, Rereads state type) (hs : scan.sawStar = false) :
    Gives state (addParam line scan (starText p).param)
      { scan with sawStar := true, starArgs := some p.noneLast } := by
  have htype := @gives_starType state line p hp.2.2.2 h
  obtain ⟨params, starArgs, starStarArgs, _, bareStar, _, _⟩ := scan
  obtain ⟨name, type, _, _⟩ := p
  obtain ⟨-, rfl, rfl, -⟩ := hp
  obtain ⟨rfl, rfl⟩ := ho
  obtain rfl := hs
  exact .bind htype (.pure _ _)

theorem gives_doubleStar {p : Parameter} (hp : p.IsStar "dict" [.named "str"])
    (h : ∀ type ∈ p.element?, Rereads state type) :
    Gives state (addParam line scan (doubleStarText p).param)
      { scan with starStarArgs := some p.noneLast, sawDoubleStar := some p.name } := by
  have htype := @gives_doubleStarType state line p hp.2.2.2 h
  obtain ⟨params, starArgs, starStarArgs, sawStar, bareStar, _, _⟩ := scan
  obtain ⟨name, type, _, _⟩ := p
  obtain ⟨-, rfl, rfl, -⟩ := hp
  obtain ⟨rfl, rfl⟩ := ho
  exact .bind htype (.pure _ _)

theorem gives_bareStar (hs : scan.sawStar = false) :
    Gives state (addParam line scan .bareStar)
      { scan with sawStar := true, bareStar := true } := by
  obtain ⟨params, starArgs, starStarArgs, _, bareStar, _, _⟩ := scan
  obtain ⟨rfl, rfl⟩ := ho
  obtain rfl := hs
  exact .pure _ _

-- Several in a row, all before a star or all after it.
theorem gives_ordinaries {ps : List Parameter}
    (h : ∀ p ∈ ps, ∀ type ∈ p.hint?, Rereads state type)
    (hk : ∀ p ∈ ps, scan.sawStar = p.keywordOnly) :
    Gives state (((ps.map paramText).map ParamText.param).foldlM (addParam line) scan)
      { scan with params := scan.params ++ ps.map Parameter.noneLast } := by
  induction ps generalizing scan with
  | nil =>
      simp only [List.map_nil, List.append_nil]
      exact .pure _ _
  | cons p rest ih =>
      have hfirst := @gives_ordinary state line scan ho p (h p (by simp)) (hk p (by simp))
      have hscan : ParamScan.IsOpen { scan with params := scan.params ++ [p.noneLast] } := ho
      have hrest := ih hscan (fun q hq => h q (by simp [hq])) fun q hq => hk q (by simp [hq])
      rw [List.append_assoc] at hrest
      rw [List.map_cons, List.map_cons, List.foldlM_cons]
      exact .bind hfirst hrest

end

section

variable {state : BuildState} {line : Int32} {s : Signature} (hs : s.Shaped)
  (h : ∀ type ∈ s.written, Rereads state type)

include hs in
-- The parameters before the first keyword-only one, and the others.
theorem params_split : ∃ plain others, s.params = plain ++ others ∧
    s.params.takeWhile (!·.keywordOnly) = plain ∧ s.params.drop plain.length = others ∧
    (∀ p ∈ plain, p.keywordOnly = false) ∧ ∀ p ∈ others, p.keywordOnly = true := by
  obtain ⟨plain, others, hsplit, hplain, hothers⟩ := hs.keywordsLast
  refine ⟨plain, others, hsplit, ?_, ?_, hplain, hothers⟩
  · rw [hsplit, List.takeWhile_append_of_pos fun p hp => by simp [hplain p hp]]
    cases others with
    | nil => simp
    | cons p rest => simp [hothers p (by simp)]
  · rw [hsplit, List.drop_left]

include h in
theorem rereads_hint {p : Parameter} (hp : p ∈ s.params) : ∀ type ∈ p.hint?, Rereads state type := by
  refine fun type ht => h type ?_
  simp only [Signature.written, List.mem_append, List.mem_filterMap]
  exact .inl (.inl ⟨p, hp, ht⟩)

include h in
theorem rereads_element {p : Parameter} (hp : p ∈ s.starArgs ∨ p ∈ s.starStarArgs) :
    ∀ type ∈ p.element?, Rereads state type := by
  refine fun type ht => h type ?_
  simp only [Signature.written, List.mem_append, List.mem_filterMap, Option.mem_toList]
  exact .inl (.inr ⟨p, hp, ht⟩)

include hs h in
-- What stands between them: `*args`, or a bare star that the others need.
theorem gives_marker {scan : ParamScan} (ho : scan.IsOpen) (hsaw : scan.sawStar = false)
    (hb : scan.bareStar = false) (ha : scan.starArgs = none) (others : List Parameter) :
    ∃ after : ParamScan,
      Gives state (((if others.isEmpty then (s.starArgs.map starText).toList
        else [(s.starArgs.map starText).getD .bareStar]).map ParamText.param).foldlM
          (addParam line) scan) after ∧
      after.IsOpen ∧ after.params = scan.params ∧ after.starStarArgs = scan.starStarArgs ∧
      after.starArgs = s.starArgs.map Parameter.noneLast ∧
      (others ≠ [] → after.sawStar = true) ∧ (after.bareStar = true → others ≠ []) := by
  cases hstar : s.starArgs with
  | some p =>
      have hgives := @gives_star state line scan ho p (hs.star p hstar)
        (rereads_element h (.inl hstar)) hsaw
      refine ⟨{ scan with sawStar := true, starArgs := some p.noneLast }, ?_, ho, rfl, rfl, rfl,
        fun _ => rfl, fun hbare => ?_⟩
      · split <;> exact .bind hgives (.pure _ _)
      · exact absurd (hb.symm.trans hbare) (by simp)
  | none =>
      cases others with
      | nil =>
          refine ⟨scan, .pure _ _, ho, rfl, rfl, ha, fun hne => absurd rfl hne, fun hbare => ?_⟩
          exact absurd (hb.symm.trans hbare) (by simp)
      | cons p rest =>
          have hgives := @gives_bareStar state line scan ho hsaw
          exact ⟨_, .bind hgives (.pure _ _), ho, rfl, rfl, ha, fun _ => rfl, fun _ => by simp⟩

-- A bare star that keyword-only parameters follow.
theorem not_dangling {scan : ParamScan} {plain others : List Parameter}
    (hp : scan.params = plain ++ others) (hothers : ∀ p ∈ others, p.keywordOnly = true)
    (hb : scan.bareStar = true → others ≠ []) : scan.isDangling = false := by
  rw [ParamScan.isDangling, hp]
  cases hbare : scan.bareStar with
  | false => rfl
  | true =>
      obtain ⟨p, rest, rfl⟩ := List.exists_cons_of_ne_nil (hb hbare)
      simp [hothers p (by simp)]

include hs h in
theorem gives_params : ∃ scan : ParamScan,
    Gives state (params line ((paramTexts s).map ParamText.param)) scan ∧
      scan.params = s.noneLast.params ∧ scan.starArgs = s.noneLast.starArgs ∧
      scan.starStarArgs = s.noneLast.starStarArgs := by
  obtain ⟨plain, others, hsplit, htake, hdrop, hplain, hothers⟩ := params_split hs
  have hmem : ∀ p, p ∈ plain ∨ p ∈ others → ∀ type ∈ p.hint?, Rereads state type := fun p hp =>
    rereads_hint h (by rw [hsplit]; exact List.mem_append.mpr hp)
  have hfirst := @gives_ordinaries state line .start ⟨rfl, rfl⟩ plain
    (fun p hp => hmem p (.inl hp)) fun p hp => (hplain p hp).symm
  obtain ⟨middle, hmarker, hopen, hparams, hdouble, hstar, hafter, hbare⟩ :=
    @gives_marker state line s hs h
      { ParamScan.start with params := plain.map Parameter.noneLast } ⟨rfl, rfl⟩ rfl rfl rfl others
  have hsecond := @gives_ordinaries state line middle hopen others
    (fun p hp => hmem p (.inr hp)) fun p hp =>
      (hafter (List.ne_nil_of_mem hp)).trans (hothers p hp).symm
  have hboth : s.noneLast.params =
      plain.map Parameter.noneLast ++ others.map Parameter.noneLast := by
    rw [Signature.noneLast, hsplit, List.map_append]
  rw [hparams, ← hboth] at hsecond
  have hall : ∃ scan : ParamScan, Gives state (((paramTexts s).map ParamText.param).foldlM
      (addParam line) .start) scan ∧ scan.params = s.noneLast.params ∧
      scan.bareStar = middle.bareStar ∧ scan.starArgs = middle.starArgs ∧
      scan.starStarArgs = s.noneLast.starStarArgs := by
    unfold paramTexts
    simp only [htake, hdrop, List.map_append, List.foldlM_append, Signature.noneLast] at hsecond ⊢
    cases hd : s.starStarArgs with
    | none =>
        exact ⟨_, .bind (.bind (.bind hfirst hmarker) hsecond) (.pure _ _), rfl, rfl, rfl, hdouble⟩
    | some p =>
        have hlast := @gives_doubleStar state line
          { middle with params := s.params.map Parameter.noneLast } hopen p (hs.doubleStar p hd)
          (rereads_element h (.inr hd))
        exact ⟨_, .bind (.bind (.bind hfirst hmarker) hsecond) (.bind hlast (.pure _ _)), rfl, rfl,
          rfl, rfl⟩
  obtain ⟨scan, hgives, hp, hb, hstars, hd⟩ := hall
  refine ⟨scan, .bind hgives (.ite (fun hc => ?_) fun _ => .pure _ _), hp, hstars.trans hstar, hd⟩
  have hkeywords : ∀ p ∈ others.map Parameter.noneLast, p.keywordOnly = true := by
    rw [List.forall_mem_map]
    exact hothers
  rw [not_dangling (hp.trans hboth) hkeywords (by simpa [hb] using hbare)] at hc
  exact absurd hc (by simp)

theorem lines_raised : ((lineTexts s).map LineText.line).filterMap BodyLine.raised? =
    s.exceptions.map expr := by
  simp [lineTexts, Function.comp_def, LineText.line, BodyLine.raised?, written]

theorem lines_mutated : ((lineTexts s).map LineText.line).filterMap BodyLine.mutated? =
    s.mutators.map fun m => (m.name, expr m.type) := by
  simp [lineTexts, Function.comp_def, LineText.line, BodyLine.mutated?, written]

-- The names of the parameters are what they were.
theorem hasParameter_noneLast {scan : ParamScan} (hparams : scan.params = s.noneLast.params)
    (hstar : scan.starArgs = s.noneLast.starArgs)
    (hdouble : scan.starStarArgs = s.noneLast.starStarArgs) {p : Parameter}
    (hp : p ∈ s.params ++ s.starArgs.toList ++ s.starStarArgs.toList) :
    hasParameter scan p.name = true := by
  rw [hasParameter_iff, hparams, hstar, hdouble]
  simp only [List.mem_append, Option.mem_toList] at hp ⊢
  rcases hp with (hp | hp) | hp
  · exact ⟨p.noneLast, .inl (.inl (List.mem_map_of_mem hp)), rfl⟩
  · exact ⟨p.noneLast, .inl (.inr (Option.map_eq_some_iff.mpr ⟨p, hp, rfl⟩)), rfl⟩
  · exact ⟨p.noneLast, .inr (Option.map_eq_some_iff.mpr ⟨p, hp, rfl⟩), rfl⟩

include hs h in
theorem gives_signature : Gives state (signature line ((paramTexts s).map ParamText.param)
    (some (expr s.returns)) (s.exceptions.map expr)
    (s.mutators.map fun m => (m.name, expr m.type))) s.noneLast := by
  obtain ⟨scan, hgives, hparams, hstar, hdouble⟩ := @gives_params state line s hs h
  have hmem : ∀ type, type = s.returns ∨ type ∈ s.mutators.map (·.type) ∨ type ∈ s.exceptions →
      Rereads state type := by
    intro type ht
    refine h type ?_
    simp only [Signature.written, List.mem_append, List.mem_cons]
    exact .inr ht
  have hexceptions := @gives_types state line s.exceptions fun type ht => hmem type (.inr (.inr ht))
  have hmutators : Gives state ((s.mutators.map fun m => (m.name, expr m.type)).mapM
      (mutator line scan)) (s.mutators.map Mutator.noneLast) := by
    refine .mapM fun m hm => ?_
    obtain ⟨p, hp, hname⟩ := hs.mutated m hm
    have hknown : hasParameter scan m.name = true := by
      rw [← hname]
      exact hasParameter_noneLast hparams hstar hdouble hp
    have htype := hmem m.type (.inr (.inl (List.mem_map_of_mem hm)))
    refine .ite (fun _ => .bind (gives_typeAt htype) (.pure _ _)) fun hno => ?_
    exact absurd hknown hno
  have hback : s.noneLast = ⟨scan.params, scan.starArgs, scan.starStarArgs, s.returns.noneLast,
      s.exceptions.map Ty.noneLast, s.mutators.map Mutator.noneLast⟩ := by
    rw [hparams, hstar, hdouble]
    rfl
  rw [hback]
  refine .bind hgives ?_
  exact .bind (gives_typeAt (hmem _ (.inl rfl))) (.bind hexceptions (.bind hmutators (.pure _ _)))

end

-- The decorator that a kind needs.
def writtenDecorator (name : Text) (kind : FunctionKind) : Decorator :=
  ((decoratorTexts name kind).head?.map Decorator.ofText).getD .none

-- The definitions that a function is merged from.
def definitionsOf (f : StubFunction) : List Definition :=
  if f.isExternal then [⟨f.name, .none, none⟩]
  else f.signatures.map fun s => ⟨f.name, writtenDecorator f.name f.kind, some s⟩

theorem gives_decorator {state : BuildState} {line : Int32} (name : Text) (kind : FunctionKind)
    (body : DefBody) : Gives state (decorator line ⟨name, decoratorTexts name kind, body⟩)
      (writtenDecorator name kind) := by
  unfold writtenDecorator decorator
  rcases decoratorTexts_cases name kind with h | h | h <;> rw [h] <;> exact .pure _ _

theorem gives_definition {state : BuildState} {line : Int32} {name : Text} {kind : FunctionKind}
    {s : Signature} (hs : s.Shaped) (h : ∀ type ∈ s.written, Rereads state type) :
    Gives state (definition line ⟨name, decoratorTexts name kind, (defText s).body⟩)
      ⟨name, writtenDecorator name kind, some s.noneLast⟩ := by
  refine .bind (gives_decorator name kind _) ?_
  have hsignature := @gives_signature state line s hs h
  rw [← lines_raised, ← lines_mutated] at hsignature
  exact .bind hsignature (.pure _ _)

end Build

end TypeStub
