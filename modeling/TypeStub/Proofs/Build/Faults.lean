import TypeStub.Proofs.Build.Parameters

-- Why a definition cannot be built.
namespace TypeStub

-- A type that does not convert, with some records made before it.
def Convert.Refuses (names : Names) (e : Expr) (error : TypeError) : Prop :=
  ∃ records after, Convert.type names e records = .error error after

-- One of these types does not convert.
def WrongType (names : Names) (types : List Expr) (cause : Cause) : Prop :=
  ∃ e ∈ types, ∃ error, Convert.Refuses names e error ∧ cause = .type error

theorem WrongType.mono {names : Names} {types more : List Expr} {cause : Cause}
    (h : WrongType names types cause) (hs : types ⊆ more) : WrongType names more cause := by
  obtain ⟨e, he, hrefused⟩ := h
  exact ⟨e, hs he, hrefused⟩

def Param.name? : Param → Option Text
  | .ordinary name _ _ | .star name _ | .doubleStar name _ => some name
  | .bareStar | .ellipsis => none

-- What is wrong with the signature of a definition: a type, the order of its parameters, or a
-- mutator that no parameter has the name of.
inductive DefBody.Wrong (names : Names) : DefBody → Cause → Prop
  | type {body : DefBody} {cause : Cause} (h : WrongType names body.types cause) :
      Wrong names body cause
  | order {params : List Param} {returns : Option Expr} {raises : List Expr}
      {mutators : List (Text × Expr)} {cause : Cause} (hc : cause.IsOrder)
      (h : ¬WellOrdered params) : Wrong names (.declared params returns raises mutators) cause
  | mutator {params : List Param} {returns : Option Expr} {raises : List Expr}
      {mutators : List (Text × Expr)} {written : Text × Expr} (hm : written ∈ mutators)
      (h : ∀ p ∈ params, p.name? ≠ some written.1) :
      Wrong names (.declared params returns raises mutators) (.unknownMutator written.1)

inductive Def.Wrong (names : Names) (d : Def) : Cause → Prop
  | decorators (h : 1 < d.decorators.length) : Wrong names d (.tooManyDecorators d.name)
  | body {cause : Cause} (h : d.body.Wrong names cause) : Wrong names d cause

namespace Build

-- A build with these names fails at this line only, and for such a cause.
abbrev FailsAt {α : Type} (names : Names) (line : Int32) (C : Cause → Prop) (p : Build α) : Prop :=
  FailsOnly (fun state => state.names = names)
    (fun fault => ∃ cause, C cause ∧ fault = .at line cause) p

section

variable {α β : Type} {names : Names} {line : Int32} {C D : Cause → Prop} {p : Build α}

theorem FailsAt.mono (h : FailsAt names line C p) (hw : ∀ cause, C cause → D cause) :
    FailsAt names line D p :=
  FailsOnly.mono h fun _ ⟨cause, hc, he⟩ => ⟨cause, hw cause hc, he⟩

theorem failsAt_fault {cause : Cause} (h : C cause) :
    FailsAt names line C (fault line cause : Build α) := .throw ⟨cause, h, rfl⟩

theorem failsAt_fault_bind {cause : Cause} {f : β → Build α} (h : C cause) :
    FailsAt names line C ((Build.fault line cause : Build β) >>= f) := .throw_bind ⟨cause, h, rfl⟩

theorem ConvertsTypes.keeps {types : List Expr} (h : ConvertsTypes p types) :
    Ensures (fun state => state.names = names) p fun _ => True :=
  fun _ _ _ hs hp => ⟨trivial, (h hp).1.trans hs⟩

-- The names stay as they are while types are converted.
theorem FailsAt.bind {types : List Expr} {f : α → Build β} (hp : FailsAt names line C p)
    (hk : ConvertsTypes p types) (hf : ∀ a, FailsAt names line C (f a)) :
    FailsAt names line C (p >>= f) :=
  .bindOf hp hk.keeps fun a _ => hf a

theorem failsAt_typeAt (e : Expr) : FailsAt names line (WrongType names [e]) (typeAt line e) := by
  intro state fault state' hs h
  simp only [typeAt] at h
  split at h
  · simp at h
  · rename_i error records hc
    obtain ⟨rfl, -⟩ := (EStateM.Result.error.injEq ..).mp h
    exact ⟨.type error, ⟨e, by simp, error, ⟨_, _, hs ▸ hc⟩, rfl⟩, rfl⟩

theorem failsAt_typesAt (types : List Expr) :
    FailsAt names line (WrongType names types) (types.mapM (typeAt line)) :=
  .mapM (fun e he => FailsAt.mono (failsAt_typeAt e) fun _ h => h.mono (by simpa using he))
    fun e _ => (converts_typeAt line e).keeps

theorem failsAt_paramType (hint default : Option Expr) :
    FailsAt names line (WrongType names hint.toList) (paramType line hint default) := by
  cases hint with
  | none => exact .pure
  | some hint =>
      refine .bind (failsAt_typeAt hint) (converts_typeAt line hint) fun _ => ?_
      exact .ite (fun _ => .pure) fun _ => .pure

theorem failsAt_starType (hint : Option Expr) :
    FailsAt names line (WrongType names hint.toList) (starType line hint) := by
  cases hint with
  | none => exact .pure
  | some hint => exact .bindPure (failsAt_typeAt hint)

theorem failsAt_doubleStarType (hint : Option Expr) :
    FailsAt names line (WrongType names hint.toList) (doubleStarType line hint) := by
  cases hint with
  | none => exact .pure
  | some hint => exact .bindPure (failsAt_typeAt hint)

theorem failsAt_parameterType (param : Param) :
    FailsAt names line (WrongType names param.hint?.toList) (parameterType line param) := by
  cases param with
  | ordinary name hint default => exact failsAt_paramType hint default
  | star name hint => exact failsAt_starType hint
  | doubleStar name hint => exact failsAt_doubleStarType hint
  | bareStar => exact .pure
  | ellipsis => exact .pure

end

section

variable {names : Names} {line : Int32} {scan : ParamScan} {param : Param}

theorem failsAt_addParam :
    FailsAt names line
      (fun cause => WrongType names param.hint?.toList cause ∨ cause.IsOrder ∧ ¬scan.Allows param)
      (addParam line scan param) := by
  by_cases h : scan.Allows param
  · rw [addParam_eq h]
    exact .bindPure (FailsAt.mono (failsAt_parameterType param) fun _ => .inl)
  · obtain ⟨cause, hc, hfault⟩ := addParam_refused line h
    rw [hfault]
    exact failsAt_fault (.inr ⟨hc, h⟩)

-- What is known of a scan that has read the parameters before some place of a list.
structure ParamScan.Reads (before : List Param) (scan : ParamScan) : Prop where
  sound : scan.Sound
  follows : ∀ rest, WellOrdered (before ++ rest) → scan.Continues rest
  star : scan.isClosed = false → scan.sawStar = false → scan.starArgs = none
  doubleStar : scan.isClosed = false → scan.starStarArgs = none
  names : ∀ p ∈ before, ∀ name ∈ p.name?, hasParameter scan name = true

theorem ParamScan.reads_start : start.Reads [] where
  sound := sound_start
  follows := fun _ h => continues_start.mpr h
  star := fun _ _ => rfl
  doubleStar := fun _ => rfl
  names := fun _ hp => absurd hp List.not_mem_nil

variable {before : List Param} {type : Ty}

-- The name of no parameter is forgotten, for a star and a double star come only once.
theorem ParamScan.Reads.hasParameter_add (h : scan.Reads before) (ha : scan.Allows param)
    {name : Text} (hn : hasParameter scan name = true ∨ param.name? = some name) :
    hasParameter (scan.add param type) name = true := by
  have hdouble := h.doubleStar ha.opened
  cases param with
  | ordinary own hint default =>
      simp only [Param.name?, Option.some.injEq] at hn
      simp only [hasParameter, ParamScan.add, List.any_append, Bool.or_eq_true] at hn ⊢
      rcases hn with ((hn | hn) | hn) | rfl
      · exact .inl (.inl (.inl hn))
      · exact .inl (.inr hn)
      · exact .inr hn
      · exact .inl (.inl (.inr (by simp)))
  | bareStar => simpa [Param.name?, hasParameter, ParamScan.add] using hn
  | star own hint =>
      have hstar := h.star ha.opened (ha.star rfl)
      simp only [Param.name?, hasParameter, hstar, hdouble] at hn
      simp only [hasParameter, ParamScan.add, plainParameter, hdouble]
      simpa using hn
  | doubleStar own hint =>
      simp only [Param.name?, hasParameter, hdouble] at hn
      simp only [hasParameter, ParamScan.add, plainParameter]
      simpa [or_assoc] using hn
  | ellipsis =>
      simp only [Param.name?, hasParameter, hdouble] at hn
      cases hstar : scan.starArgs with
      | none => simp_all [hasParameter, ParamScan.add]
      | some found => simp_all [hasParameter, ParamScan.add]

theorem ParamScan.Reads.add (h : scan.Reads before) (ha : scan.Allows param) :
    (scan.add param type).Reads (before ++ [param]) where
  sound := h.sound.add type
  follows := by
    intro rest hw
    rw [List.append_assoc] at hw
    exact ((continues_cons h.sound type).mp (h.follows _ hw)).2
  star := by
    intro hopened hstar
    rw [isClosed_add type ha.opened] at hopened
    rw [sawStar_add, Bool.or_eq_false_iff] at hstar
    have hnone := h.star ha.opened hstar.1
    cases param with
    | star own hint => simp [Param.isStar] at hstar
    | ellipsis => simp [Param.isOpenEnded] at hopened
    | _ => exact hnone
  doubleStar := by
    intro hopened
    rw [isClosed_add type ha.opened] at hopened
    have hnone := h.doubleStar ha.opened
    cases param with
    | doubleStar own hint => simp [Param.isOpenEnded] at hopened
    | ellipsis => simp [Param.isOpenEnded] at hopened
    | _ => exact hnone
  names := by
    intro p hp name hn
    refine h.hasParameter_add ha ?_
    rcases List.mem_append.mp hp with hp | hp
    · exact .inl (h.names p hp name hn)
    · obtain rfl := List.mem_singleton.mp hp
      exact .inr hn

end

section

variable {names : Names} {line : Int32}

theorem reads_addParam {before : List Param} {param : Param} {scan : ParamScan}
    (h : scan.Reads before) :
    Ensures (fun state => state.names = names) (addParam line scan param)
      (ParamScan.Reads (before ++ [param])) := by
  intro state next state' hs hadd
  obtain ⟨ha, type, -, rfl⟩ := addParam_ok_iff.mp hadd
  exact ⟨h.add ha, ((converts_addParam line scan param) hadd).1.trans hs⟩

theorem reads_scan (written : List Param) :
    Ensures (fun state => state.names = names) (written.foldlM (addParam line) .start)
      (ParamScan.Reads written) :=
  .foldlMSplit ParamScan.reads_start fun _ _ _ _ _ h => reads_addParam h

theorem reads_params (written : List Param) :
    Ensures (fun state => state.names = names) (params line written) (ParamScan.Reads written) :=
  .bind (reads_scan written) fun _ hscan => .ite (fun _ => .throw_bind) fun _ => .pure hscan

-- Where parameters are refused, their list is not one of the grammar of signatures.
theorem failsAt_params (written : List Param) :
    FailsAt names line
      (fun cause => WrongType names (written.flatMap (·.hint?.toList)) cause ∨
        cause.IsOrder ∧ ¬WellOrdered written) (params line written) := by
  refine .bindOf (.foldlMSplit ParamScan.reads_start (fun _ _ _ _ _ h => reads_addParam h) ?_)
    (reads_scan written) ?_
  · intro before param after scan hsplit h
    refine FailsAt.mono failsAt_addParam fun cause hc => ?_
    rcases hc with hc | ⟨hc, hrefused⟩
    · refine .inl (hc.mono fun e he => List.mem_flatMap.mpr ⟨param, by simp [hsplit], he⟩)
    · exact .inr ⟨hc, fun hw => hrefused (h.follows _ (hsplit ▸ hw)).allows⟩
  · intro scan h
    refine .ite (fun hd => failsAt_fault_bind (.inr ⟨trivial, fun hw => ?_⟩)) fun _ => .pure
    have hend := ParamScan.continues_nil.mp (h.follows [] (by simpa using hw))
    exact Bool.noConfusion (hd.symm.trans hend)

theorem failsAt_mutator (scan : ParamScan) (written : Text × Expr) :
    FailsAt names line
      (fun cause => WrongType names [written.2] cause ∨
        cause = .unknownMutator written.1 ∧ hasParameter scan written.1 = false)
      (mutator line scan written) := by
  refine .ite (fun _ => ?_) fun hn => failsAt_fault_bind (.inr ⟨rfl, Bool.eq_false_iff.mpr hn⟩)
  exact .bindPure (FailsAt.mono (failsAt_typeAt written.2) fun _ => .inl)

theorem failsAt_mutators {body : DefBody} {params : List Param} {returns : Option Expr}
    {raises : List Expr} {mutators : List (Text × Expr)}
    (hb : body = .declared params returns raises mutators) {scan : ParamScan}
    (hs : scan.Reads params) :
    FailsAt names line (body.Wrong names) (mutators.mapM (mutator line scan)) := by
  refine .mapM (fun written hm => FailsAt.mono (failsAt_mutator scan written) fun cause hc => ?_)
    fun written _ => (converts_mutator line scan written).keeps
  subst hb
  rcases hc with hc | ⟨rfl, hn⟩
  · have htype : written.2 ∈ mutators.map (·.2) := List.mem_map_of_mem hm
    exact .type (hc.mono fun e he => by simp_all [DefBody.types])
  · refine .mutator hm fun p hp hname => ?_
    rw [hs.names p hp _ hname] at hn
    exact Bool.noConfusion hn

theorem failsAt_signature (params : List Param) (returns : Option Expr) (raises : List Expr)
    (mutators : List (Text × Expr)) :
    FailsAt names line ((DefBody.declared params returns raises mutators).Wrong names)
      (signature line params returns raises mutators) := by
  have hparams : FailsAt names line ((DefBody.declared params returns raises mutators).Wrong names)
      (Build.params line params) := by
    refine FailsAt.mono (failsAt_params params) fun cause hc => ?_
    rcases hc with hc | ⟨hc, hw⟩
    · exact .type (hc.mono (List.subset_append_left _ _))
    · exact .order hc hw
  refine .bindOf hparams (reads_params params) fun scan hscan => ?_
  have hraises : FailsAt names line ((DefBody.declared params returns raises mutators).Wrong names)
      (raises.mapM (typeAt line)) :=
    FailsAt.mono (failsAt_typesAt raises) fun cause hc =>
      .type (hc.mono fun e he => by simp [DefBody.types, he])
  have hrest : ∀ result, FailsAt names line
      ((DefBody.declared params returns raises mutators).Wrong names) (do
        let exceptions ← raises.mapM (typeAt line)
        let mutators ← mutators.mapM (mutator line scan)
        return (⟨scan.params, scan.starArgs, scan.starStarArgs, result, exceptions, mutators⟩ :
          Signature)) := fun result =>
    FailsAt.bind hraises (converts_typesAt line raises) fun _ =>
      .bindPure (failsAt_mutators rfl hscan)
  cases returns with
  | none => exact FailsAt.bind .pure (.pure Ty.anything) hrest
  | some e =>
      refine FailsAt.bind ?_ (converts_typeAt line e) hrest
      exact FailsAt.mono (failsAt_typeAt e) fun cause hc =>
        .type (hc.mono fun e he => by simp_all [DefBody.types])

-- A definition is built, or there is something wrong with it and its own line is blamed.
theorem failsAt_definition (d : Def) :
    FailsAt names line (d.Wrong names) (definition line d) := by
  have hdecorator : FailsAt names line (d.Wrong names) (decorator line d) := by
    unfold decorator
    split
    · exact .pure
    · exact .pure
    · rename_i hnone hone
      refine failsAt_fault (.decorators ?_)
      rcases hd : d.decorators with _ | ⟨first, _ | ⟨second, rest⟩⟩
      · exact absurd hd hnone
      · exact absurd hd (hone first)
      · simp
  refine .bind hdecorator (converts_decorator line d) fun _ => ?_
  split
  · exact .pure
  · rename_i params returns raises mutators hbody
    exact .bindPure (FailsAt.mono (failsAt_signature params returns raises mutators)
      fun cause hc => .body (hbody ▸ hc))

end

end Build

end TypeStub
