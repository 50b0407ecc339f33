import TypeStub.Merge
import TypeStub.Proofs.Build.Converted
import TypeStub.Proofs.Throughout

-- Which lists of parameters make a signature, and what signature they make.
namespace TypeStub

open TypeStub.Convert

namespace Param

def isOrdinary : Param → Bool
  | .ordinary _ _ _ => true
  | _ => false

def isStar : Param → Bool
  | .bareStar | .star _ _ => true
  | _ => false

-- What takes all other keywords leaves nothing for a parameter after it.
def isOpenEnded : Param → Bool
  | .doubleStar _ _ | .ellipsis => true
  | _ => false

-- What takes all other positional arguments.
def isVariadic : Param → Bool
  | .star _ _ | .ellipsis => true
  | _ => false

-- The name of an ordinary parameter, whether it has a default, and whether it is keyword-only.
def flags? (keywordOnly : Bool) : Param → Option (Text × Bool × Bool)
  | .ordinary name _ default => some (name, default.isSome, keywordOnly)
  | _ => none

end Param

def Parameter.flags (p : Parameter) : Text × Bool × Bool := (p.name, p.isOptional, p.keywordOnly)

-- The parameters before the first star, and those from it on.
def beforeStar (written : List Param) : List Param := written.takeWhile (!·.isStar)

def fromStar (written : List Param) : List Param := written.dropWhile (!·.isStar)

def ordinaryAmong (params : List Param) : Prop := ∃ p ∈ params, p.isOrdinary = true

-- The lists that the grammar of signatures allows.
structure WellOrdered (written : List Param) : Prop where
  stars : written.countP Param.isStar ≤ 1
  ends : written.countP Param.isOpenEnded ≤ 1
  last : Throughout (fun _ p after => p.isOpenEnded = true → after = []) written
  bare : Throughout (fun _ p after => p = .bareStar → ordinaryAmong after) written

-- What is told of the others.
def Cause.IsOrder : Cause → Prop
  | .afterDoubleStar _ | .afterEllipsis | .secondStar | .ellipsisAfterBareStar
  | .bareStarLast => True
  | _ => False

-- The parameters of a signature that a list of them makes.
structure Describes (written : List Param) (made : List Parameter)
    (starArgs starStarArgs : Option Parameter) : Prop where
  flags : made.map Parameter.flags =
    (beforeStar written).filterMap (Param.flags? false) ++
      (fromStar written).filterMap (Param.flags? true)
  positional : (made.filter (!·.keywordOnly)).length = (beforeStar written).countP Param.isOrdinary
  starArgs : starArgs.isSome = written.any Param.isVariadic
  starStarArgs : starStarArgs.isSome = written.any Param.isOpenEnded

theorem ordinaryAmong_cons {p : Param} {rest : List Param} :
    ordinaryAmong (p :: rest) ↔ p.isOrdinary = true ∨ ordinaryAmong rest := by
  simp [ordinaryAmong]

namespace Build

-- The type that a parameter is read for. A bare star and an ellipsis have none.
def parameterType (line : Int32) : Param → Build Ty
  | .ordinary _ hint default => paramType line hint default
  | .star _ hint => starType line hint
  | .doubleStar _ hint => doubleStarType line hint
  | .bareStar | .ellipsis => return .anything

namespace ParamScan

def isClosed (scan : ParamScan) : Bool := scan.sawDoubleStar.isSome || scan.sawEllipsis

-- A parameter may come next.
structure Allows (scan : ParamScan) (param : Param) : Prop where
  opened : scan.isClosed = false
  star : param.isStar = true → scan.sawStar = false
  ellipsis : param = .ellipsis → scan.isDangling = false

-- The parameters read so far and one more of this type.
def add (scan : ParamScan) (param : Param) (type : Ty) : ParamScan :=
  match param with
  | .ordinary name _ default =>
    { scan with params := scan.params ++ [⟨name, type, default.isSome, scan.sawStar⟩] }
  | .bareStar => { scan with sawStar := true, bareStar := true }
  | .star name _ => { scan with sawStar := true, starArgs := some (plainParameter name type) }
  | .doubleStar name _ =>
    { scan with starStarArgs := some (plainParameter name type), sawDoubleStar := some name }
  | .ellipsis =>
    { scan with
      sawEllipsis := true
      starArgs := scan.starArgs.or (some (plainParameter "args" (.named "tuple")))
      starStarArgs := scan.starStarArgs.or (some (plainParameter "kwargs" (.named "dict"))) }

-- Keyword-only parameters and a bare star are seen after a star only.
structure Sound (scan : ParamScan) : Prop where
  bare : scan.bareStar = true → scan.sawStar = true
  keyword : scan.params.any (·.keywordOnly) = true → scan.sawStar = true

theorem sound_start : start.Sound := ⟨by simp [start], by simp [start]⟩

-- A bare star waits from here on until an ordinary parameter comes.
def waitsAfter (dangling : Bool) : Param → Bool
  | .ordinary _ _ _ => false
  | .bareStar => true
  | _ => dangling

section

variable {scan : ParamScan} {param : Param} (type : Ty)

theorem sawStar_add : (scan.add param type).sawStar = (scan.sawStar || param.isStar) := by
  cases param <;> simp [add, Param.isStar]

theorem isClosed_add (h : scan.isClosed = false) :
    (scan.add param type).isClosed = param.isOpenEnded := by
  unfold isClosed at h
  cases param <;> simp_all [add, isClosed, Param.isOpenEnded]

theorem isDangling_add (hs : scan.Sound) (ha : scan.Allows param) :
    (scan.add param type).isDangling = waitsAfter scan.isDangling param := by
  have hbare := hs.bare
  have hkeyword := hs.keyword
  cases param with
  | ordinary name hint default =>
      by_cases hb : scan.bareStar = true
      · simp [add, isDangling, waitsAfter, hb, hbare hb]
      · simp [add, isDangling, waitsAfter, hb]
  | bareStar =>
      have hstar := ha.star rfl
      rw [hstar] at hkeyword
      simpa [add, isDangling, waitsAfter] using hkeyword
  | _ => rfl

theorem Sound.add (hs : scan.Sound) (type : Ty) : (scan.add param type).Sound := by
  have hbare := hs.bare
  have hkeyword := hs.keyword
  cases param with
  | ordinary name hint default =>
      refine ⟨hbare, fun h => ?_⟩
      simp only [ParamScan.add, List.any_append, Bool.or_eq_true] at h
      rcases h with h | h
      · exact hkeyword h
      · have hstar : scan.sawStar = true := by simpa using h
        exact hstar
  | bareStar => exact ⟨fun _ => rfl, fun _ => rfl⟩
  | star name hint => exact ⟨fun _ => rfl, fun _ => rfl⟩
  | _ => exact ⟨hbare, hkeyword⟩

theorem flags_add : (scan.add param type).params.map Parameter.flags =
    scan.params.map Parameter.flags ++ (param.flags? scan.sawStar).toList := by
  cases param <;> simp [add, Param.flags?, Parameter.flags]

theorem starArgs_add :
    (scan.add param type).starArgs.isSome = (scan.starArgs.isSome || param.isVariadic) := by
  cases param <;> simp [add, Param.isVariadic]

theorem starStarArgs_add :
    (scan.add param type).starStarArgs.isSome =
      (scan.starStarArgs.isSome || param.isOpenEnded) := by
  cases param <;> simp [add, Param.isOpenEnded]

end

-- The rest of a list may follow what was read.
structure Continues (scan : ParamScan) (rest : List Param) : Prop where
  stars : scan.sawStar.toNat + rest.countP Param.isStar ≤ 1
  ends : scan.isClosed.toNat + rest.countP Param.isOpenEnded ≤ 1
  closed : scan.isClosed = true → rest = []
  last : Throughout (fun _ p after => p.isOpenEnded = true → after = []) rest
  dangling : scan.isDangling = true → ordinaryAmong rest
  bare : Throughout (fun _ p after => p = .bareStar → ordinaryAmong after) rest

theorem continues_start {written : List Param} :
    start.Continues written ↔ WellOrdered written := by
  constructor
  · intro h
    exact ⟨by simpa [start] using h.stars, by simpa [start, isClosed] using h.ends, h.last, h.bare⟩
  · intro h
    refine ⟨by simpa [start] using h.stars, by simpa [start, isClosed] using h.ends, ?_, h.last, ?_,
      h.bare⟩
    · simp [start, isClosed]
    · simp [start, isDangling]

theorem continues_nil {scan : ParamScan} : scan.Continues [] ↔ scan.isDangling = false := by
  constructor
  · intro h
    rw [Bool.eq_false_iff]
    intro hd
    simpa [ordinaryAmong] using h.dangling hd
  · intro h
    refine ⟨?_, ?_, fun _ => rfl, throughout_nil, by simp [h], throughout_nil⟩
    · simpa using Bool.toNat_le scan.sawStar
    · simpa using Bool.toNat_le scan.isClosed

theorem Continues.allows {scan : ParamScan} {param : Param} {rest : List Param}
    (h : scan.Continues (param :: rest)) : scan.Allows param where
  opened := by
    rw [Bool.eq_false_iff]
    intro hc
    simpa using h.closed hc
  star hp := by
    have hstars := h.stars
    rw [List.countP_cons_of_pos hp] at hstars
    rw [Bool.eq_false_iff]
    intro hs
    rw [hs, Bool.toNat_true] at hstars
    omega
  ellipsis hp := by
    have hrest : rest = [] := h.last [] param rest rfl (by rw [hp]; rfl)
    rw [Bool.eq_false_iff]
    intro hd
    simpa [ordinaryAmong, hrest, hp, Param.isOrdinary] using h.dangling hd

-- A waiting bare star is met by the rest of a list as by the parameters after its first one.
theorem dangling_cons {scan : ParamScan} {param : Param} {rest : List Param} (hs : scan.Sound)
    (ha : scan.Allows param) (type : Ty) :
    ((scan.add param type).isDangling = true → ordinaryAmong rest) ↔
      (scan.isDangling = true → ordinaryAmong (param :: rest)) ∧
        (param = .bareStar → ordinaryAmong rest) := by
  rw [isDangling_add type hs ha, ordinaryAmong_cons]
  cases param with
  | bareStar => simpa [waitsAfter, Param.isOrdinary] using fun h _ => h
  | _ => simp [waitsAfter, Param.isOrdinary]

theorem stars_cons {scan : ParamScan} {param : Param} {rest : List Param}
    (ha : scan.Allows param) (type : Ty) :
    (scan.add param type).sawStar.toNat + rest.countP Param.isStar =
      scan.sawStar.toNat + (param :: rest).countP Param.isStar := by
  rw [sawStar_add]
  by_cases hp : param.isStar = true
  · rw [hp, ha.star hp, List.countP_cons_of_pos hp, Bool.or_true, Bool.toNat_true, Bool.toNat_false]
    omega
  · rw [List.countP_cons_of_neg hp, Bool.eq_false_iff.mpr hp, Bool.or_false]

theorem ends_cons {scan : ParamScan} {param : Param} {rest : List Param}
    (ha : scan.Allows param) (type : Ty) :
    (scan.add param type).isClosed.toNat + rest.countP Param.isOpenEnded =
      scan.isClosed.toNat + (param :: rest).countP Param.isOpenEnded := by
  rw [isClosed_add type ha.opened, ha.opened, Bool.toNat_false]
  by_cases hp : param.isOpenEnded = true
  · rw [hp, List.countP_cons_of_pos hp, Bool.toNat_true]
    omega
  · rw [Bool.eq_false_iff.mpr hp, List.countP_cons_of_neg hp, Bool.toNat_false]

theorem continues_cons {scan : ParamScan} {param : Param} {rest : List Param} (hs : scan.Sound)
    (type : Ty) : scan.Continues (param :: rest) ↔
      scan.Allows param ∧ (scan.add param type).Continues rest := by
  constructor
  · intro h
    have ha := h.allows
    have hlast := throughout_cons.mp h.last
    have hbare := throughout_cons.mp h.bare
    refine ⟨ha, ?_, ?_, ?_, hlast.2, ?_, hbare.2⟩
    · rw [stars_cons ha type]
      exact h.stars
    · rw [ends_cons ha type]
      exact h.ends
    · rw [isClosed_add type ha.opened]
      exact hlast.1
    · exact (dangling_cons hs ha type).mpr ⟨h.dangling, hbare.1⟩
  · rintro ⟨ha, h⟩
    have hclosed := h.closed
    rw [isClosed_add type ha.opened] at hclosed
    obtain ⟨hdangling, hbare⟩ := (dangling_cons hs ha type).mp h.dangling
    refine ⟨?_, ?_, ?_, throughout_cons.mpr ⟨hclosed, h.last⟩, hdangling,
      throughout_cons.mpr ⟨hbare, h.bare⟩⟩
    · rw [← stars_cons ha type]
      exact h.stars
    · rw [← ends_cons ha type]
      exact h.ends
    · simp [ha.opened]

end ParamScan

section

variable {line : Int32} {scan : ParamScan} {param : Param}

-- A parameter that may come next only needs its type.
theorem addParam_eq (h : scan.Allows param) :
    addParam line scan param = do return scan.add param (← parameterType line param) := by
  obtain ⟨hopened, hstar, hellipsis⟩ := h
  obtain ⟨hdouble, hlast⟩ : scan.sawDoubleStar = none ∧ scan.sawEllipsis = false := by
    simpa [ParamScan.isClosed] using hopened
  obtain ⟨params, starArgs, starStarArgs, sawStar, bareStar, sawEllipsis, sawDoubleStar⟩ := scan
  subst hdouble hlast
  cases param with
  | bareStar =>
      have hno := hstar rfl
      subst hno
      rfl
  | star name hint =>
      have hno := hstar rfl
      subst hno
      rfl
  | ellipsis =>
      have hno := hellipsis rfl
      simp only [addParam, hno]
      rfl
  | _ => rfl

-- A parameter that may not come next is an error, before its type is read.
theorem addParam_refused (line : Int32) (h : ¬scan.Allows param) :
    ∃ cause : Cause, cause.IsOrder ∧ addParam line scan param = fault line cause := by
  unfold addParam
  dsimp only
  split
  · exact ⟨.afterDoubleStar _, trivial, rfl⟩
  · rename_i hdouble
    by_cases hlast : scan.sawEllipsis = true
    · rw [if_pos hlast]
      exact ⟨.afterEllipsis, trivial, rfl⟩
    · rw [if_neg hlast]
      have hopened : scan.isClosed = false := by
        rw [ParamScan.isClosed, Option.eq_none_iff_forall_ne_some.mpr hdouble,
          Bool.eq_false_iff.mpr hlast]
        rfl
      have hstar : param.isStar = true ∧ scan.sawStar = true ∨
          param = .ellipsis ∧ scan.isDangling = true := by
        by_contra hno
        simp only [not_or, not_and, Bool.not_eq_true] at hno
        exact h ⟨hopened, hno.1, hno.2⟩
      rcases hstar with ⟨hp, hs⟩ | ⟨rfl, hd⟩
      · cases param with
        | bareStar =>
            simp only [hs]
            exact ⟨.secondStar, trivial, rfl⟩
        | star name hint =>
            simp only [hs]
            exact ⟨.secondStar, trivial, rfl⟩
        | _ => simp [Param.isStar] at hp
      · simp only [hd]
        exact ⟨.ellipsisAfterBareStar, trivial, rfl⟩

end

-- A parameter is read for its type, and then it is added.
theorem addParam_ok_iff {line : Int32} {scan next : ParamScan} {param : Param}
    {before after : BuildState} : addParam line scan param before = .ok next after ↔
      scan.Allows param ∧
        ∃ type, parameterType line param before = .ok type after ∧ next = scan.add param type := by
  constructor
  · intro h
    have ha : scan.Allows param := by
      by_contra hrefused
      obtain ⟨cause, -, hfault⟩ := addParam_refused line hrefused
      rw [hfault] at h
      cases h
    rw [addParam_eq ha] at h
    obtain ⟨type, middle, htype, hadd⟩ := run_bind_ok h
    obtain ⟨rfl, rfl⟩ := (EStateM.Result.ok.injEq ..).mp hadd
    exact ⟨ha, type, htype, rfl⟩
  · rintro ⟨ha, type, htype, rfl⟩
    rw [addParam_eq ha, run_bind_ok_iff]
    exact ⟨type, after, htype, rfl⟩

theorem converts_parameterType (line : Int32) (param : Param) :
    ConvertsTypes (parameterType line param) param.hint?.toList := by
  cases param with
  | ordinary name hint default => exact converts_paramType line hint default
  | star name hint => exact converts_starType line hint
  | doubleStar name hint => exact converts_doubleStarType line hint
  | _ => exact .pure _

-- A written type that converts is read, and no written type leaves the state as it is.
theorem hint_reads (line : Int32) {hint : Option Expr} {before : BuildState} {records : Records}
    (h : ConvertsEach (hint.toList.map (before.names, ·)) before.records records) :
    (hint = none ∧ before = ⟨before.names, records⟩) ∨
      ∃ e type, hint = some e ∧ typeAt line e before = .ok type ⟨before.names, records⟩ := by
  cases hint with
  | none =>
      refine .inl ⟨rfl, ?_⟩
      obtain ⟨names, start⟩ := before
      cases h
      rfl
  | some e =>
      cases h with
      | cons he hrest =>
          cases hrest
          exact .inr ⟨e, _, rfl, by rw [typeAt, he]⟩

theorem parameterType_reads (line : Int32) {param : Param} {before : BuildState} {records : Records}
    (h : ConvertsEach (param.hint?.toList.map (before.names, ·)) before.records records) :
    ∃ type, parameterType line param before = .ok type ⟨before.names, records⟩ := by
  obtain ⟨hnone, hstate⟩ | ⟨e, type, hsome, htype⟩ := hint_reads line h
  · rw [← hstate]
    cases param with
    | bareStar => exact ⟨_, rfl⟩
    | ellipsis => exact ⟨_, rfl⟩
    | _ =>
        obtain rfl := hnone
        exact ⟨_, rfl⟩
  · cases param with
    | ordinary name hint default =>
        obtain rfl : hint = some e := hsome
        by_cases hoptional : default.any isNone = true
        · refine ⟨.unionOf [type, .named "NoneType"], run_bind_ok_iff.mpr ⟨type, _, htype, ?_⟩⟩
          rw [if_pos hoptional]
          rfl
        · refine ⟨type, run_bind_ok_iff.mpr ⟨type, _, htype, ?_⟩⟩
          rw [if_neg hoptional]
          rfl
    | star name hint =>
        obtain rfl : hint = some e := hsome
        exact ⟨_, run_bind_ok_iff.mpr ⟨type, _, htype, rfl⟩⟩
    | doubleStar name hint =>
        obtain rfl : hint = some e := hsome
        exact ⟨_, run_bind_ok_iff.mpr ⟨type, _, htype, rfl⟩⟩
    | _ => simp [Param.hint?] at hsome

theorem convertsEach_append_iff {exprs more : List (Names × Expr)} {before after : Records} :
    ConvertsEach (exprs ++ more) before after ↔
      ∃ middle, ConvertsEach exprs before middle ∧ ConvertsEach more middle after := by
  constructor
  · intro h
    induction exprs generalizing before with
    | nil => exact ⟨before, .nil _, h⟩
    | cons first rest ih =>
        cases h with
        | cons he hrest =>
            obtain ⟨middle, hfirst, hmore⟩ := ih hrest
            exact ⟨middle, .cons he hfirst, hmore⟩
  · rintro ⟨middle, hfirst, hmore⟩
    exact hfirst.append hmore

-- The parameters of a list are read exactly when the list continues what was read before and each
-- written type converts. The induction is on the list, one parameter being a step.
theorem scans_iff (line : Int32) {written : List Param} {scan : ParamScan} {before after : BuildState}
    (hs : scan.Sound) :
    (∃ last, written.foldlM (addParam line) scan before = .ok last after ∧
        last.isDangling = false) ↔
      scan.Continues written ∧ after.names = before.names ∧
        ConvertsEach ((written.flatMap (·.hint?.toList)).map (before.names, ·)) before.records
          after.records := by
  induction written generalizing scan before with
  | nil =>
      rw [ParamScan.continues_nil]
      constructor
      · rintro ⟨last, hrun, hlast⟩
        obtain ⟨rfl, rfl⟩ := (EStateM.Result.ok.injEq ..).mp hrun
        exact ⟨hlast, rfl, .nil _⟩
      · rintro ⟨hlast, hnames, hconverts⟩
        refine ⟨scan, ?_, hlast⟩
        obtain ⟨names, records⟩ := after
        obtain rfl := hnames
        cases hconverts
        rfl
  | cons param rest ih =>
      rw [List.flatMap_cons, List.map_append, convertsEach_append_iff]
      simp only [List.foldlM_cons, run_bind_ok_iff, addParam_ok_iff]
      constructor
      · rintro ⟨last, ⟨next, middle, ⟨ha, type, htype, rfl⟩, hrest⟩, hlast⟩
        obtain ⟨hc, hnames, hconverts⟩ := (ih (hs.add type)).mp ⟨last, hrest, hlast⟩
        obtain ⟨hkept, hfirst⟩ := converts_parameterType line param htype
        rw [hkept] at hnames hconverts
        exact ⟨(ParamScan.continues_cons hs type).mpr ⟨ha, hc⟩, hnames, _, hfirst, hconverts⟩
      · rintro ⟨hc, hnames, records, hfirst, hconverts⟩
        obtain ⟨type, htype⟩ := parameterType_reads line hfirst
        obtain ⟨ha, hrest⟩ := (ParamScan.continues_cons hs type).mp hc
        have hmore : ∃ last, rest.foldlM (addParam line) (scan.add param type)
            ⟨before.names, records⟩ = .ok last after ∧ last.isDangling = false :=
          (ih (hs.add type)).mpr ⟨hrest, hnames, hconverts⟩
        obtain ⟨last, hrun, hlast⟩ := hmore
        exact ⟨last, ⟨_, _, ⟨ha, type, htype, rfl⟩, hrun⟩, hlast⟩

-- Nothing may wait when the list ends.
theorem params_ok_iff {line : Int32} {written : List Param} {scan : ParamScan}
    {before after : BuildState} : params line written before = .ok scan after ↔
      written.foldlM (addParam line) .start before = .ok scan after ∧ scan.isDangling = false := by
  unfold params
  rw [run_bind_ok_iff]
  constructor
  · rintro ⟨last, middle, hrun, hreturn⟩
    by_cases hd : last.isDangling = true
    · rw [if_pos hd] at hreturn
      obtain ⟨_, _, hfault, -⟩ := run_bind_ok hreturn
      cases hfault
    · rw [if_neg hd] at hreturn
      obtain ⟨rfl, rfl⟩ := (EStateM.Result.ok.injEq ..).mp hreturn
      exact ⟨hrun, Bool.eq_false_iff.mpr hd⟩
  · rintro ⟨hrun, hd⟩
    refine ⟨scan, after, hrun, ?_⟩
    rw [hd]
    rfl

-- The flags of the ordinary parameters of a list, from a place on where a star was met or not.
def described (starred : Bool) : List Param → List (Text × Bool × Bool)
  | [] => []
  | p :: rest => (p.flags? starred).toList ++ described (starred || p.isStar) rest

theorem flags?_cons {keywordOnly : Bool} (p : Param) (rest : List Param) :
    (p :: rest).filterMap (Param.flags? keywordOnly) =
      (p.flags? keywordOnly).toList ++ rest.filterMap (Param.flags? keywordOnly) := by
  rw [List.filterMap_cons]
  cases p.flags? keywordOnly <;> rfl

theorem described_starred (written : List Param) :
    described true written = written.filterMap (Param.flags? true) := by
  induction written with
  | nil => rfl
  | cons p rest ih =>
      rw [described, Bool.true_or, ih, flags?_cons]

theorem described_unstarred (written : List Param) :
    described false written = (beforeStar written).filterMap (Param.flags? false) ++
      (fromStar written).filterMap (Param.flags? true) := by
  induction written with
  | nil => rfl
  | cons p rest ih =>
      unfold beforeStar fromStar at *
      rw [described, Bool.false_or, List.takeWhile_cons, List.dropWhile_cons]
      by_cases hp : p.isStar = true
      · have hnone : p.flags? false = none := by cases p <;> first | rfl | cases hp
        have hkept : p.flags? true = none := by cases p <;> first | rfl | cases hp
        rw [hp, described_starred, hnone, Bool.not_true, if_neg Bool.false_ne_true,
          if_neg Bool.false_ne_true, flags?_cons, hkept]
        rfl
      · rw [Bool.eq_false_iff.mpr hp, Bool.not_false, if_pos rfl, if_pos rfl, ih, flags?_cons,
          List.append_assoc]

-- What reading a list adds to a scan.
structure Extends (scan : ParamScan) (written : List Param) (last : ParamScan) : Prop where
  flags : last.params.map Parameter.flags =
    scan.params.map Parameter.flags ++ described scan.sawStar written
  starArgs : last.starArgs.isSome = (scan.starArgs.isSome || written.any Param.isVariadic)
  starStarArgs :
    last.starStarArgs.isSome = (scan.starStarArgs.isSome || written.any Param.isOpenEnded)

theorem scan_extends {line : Int32} {written : List Param} {scan last : ParamScan}
    {before after : BuildState}
    (h : written.foldlM (addParam line) scan before = .ok last after) :
    Extends scan written last := by
  induction written generalizing scan before with
  | nil =>
      obtain ⟨rfl, -⟩ := (EStateM.Result.ok.injEq ..).mp h
      exact ⟨by simp [described], by simp, by simp⟩
  | cons param rest ih =>
      rw [List.foldlM_cons] at h
      obtain ⟨next, middle, hadd, hrest⟩ := run_bind_ok h
      obtain ⟨-, type, -, rfl⟩ := addParam_ok_iff.mp hadd
      have hlast := ih hrest
      refine ⟨?_, ?_, ?_⟩
      · rw [hlast.flags, ParamScan.flags_add, ParamScan.sawStar_add, described, List.append_assoc]
      · rw [hlast.starArgs, ParamScan.starArgs_add, List.any_cons, Bool.or_assoc]
      · rw [hlast.starStarArgs, ParamScan.starStarArgs_add, List.any_cons, Bool.or_assoc]

theorem flags?_length (written : List Param) :
    (written.filterMap (Param.flags? false)).length = written.countP Param.isOrdinary := by
  induction written with
  | nil => rfl
  | cons p rest ih =>
      rw [flags?_cons, List.length_append, ih, List.countP_cons, Nat.add_comm]
      cases p <;> rfl

theorem flags?_keywordOnly {keywordOnly : Bool} {written : List Param} {flags : Text × Bool × Bool}
    (h : flags ∈ written.filterMap (Param.flags? keywordOnly)) : flags.2.2 = keywordOnly := by
  obtain ⟨p, -, hp⟩ := List.mem_filterMap.mp h
  cases p with
  | ordinary name hint default =>
      obtain rfl := Option.some.inj hp
      rfl
  | _ => simp [Param.flags?] at hp

-- The keyword-only parameters are a suffix, so the others are those before the star.
theorem positional_length {written : List Param} {made : List Parameter}
    (h : made.map Parameter.flags = (beforeStar written).filterMap (Param.flags? false) ++
      (fromStar written).filterMap (Param.flags? true)) :
    (made.filter (!·.keywordOnly)).length = (beforeStar written).countP Param.isOrdinary := by
  have hflags : (made.filter (!·.keywordOnly)).map Parameter.flags =
      (made.map Parameter.flags).filter (!·.2.2) := by
    rw [List.filter_map]
    rfl
  rw [← flags?_length, ← List.length_map Parameter.flags, hflags, h, List.filter_append,
    List.filter_eq_self.mpr fun flags hf => by simp [flags?_keywordOnly hf],
    List.filter_eq_nil_iff.mpr fun flags hf => by simp [flags?_keywordOnly hf], List.append_nil]

theorem params_describes {line : Int32} {written : List Param} {scan : ParamScan}
    {before after : BuildState} (h : params line written before = .ok scan after) :
    Describes written scan.params scan.starArgs scan.starStarArgs := by
  have hlast := scan_extends (params_ok_iff.mp h).1
  have hflags := hlast.flags.trans (described_unstarred written)
  exact ⟨hflags, positional_length hflags, hlast.starArgs, hlast.starStarArgs⟩

-- A signature has the parameters that were read first.
theorem signature_describes {line : Int32} {written : List Param} {returns : Option Expr}
    {raises : List Expr} {mutators : List (Text × Expr)} {s : Signature}
    {before after : BuildState}
    (h : signature line written returns raises mutators before = .ok s after) :
    Describes written s.params s.starArgs s.starStarArgs := by
  obtain ⟨scan, middle, hscan, hrest⟩ := run_bind_ok h
  have hkeeps : ∀ result : Ty, Ensures (fun _ => True) (do
      let exceptions ← raises.mapM (typeAt line)
      let mutators ← mutators.mapM (mutator line scan)
      return (⟨scan.params, scan.starArgs, scan.starStarArgs, result, exceptions, mutators⟩ :
        Signature)) fun s => Describes written s.params s.starArgs s.starStarArgs := fun _ =>
    .bind .any fun _ _ => .bind .any fun _ _ => .pure (params_describes hscan)
  cases returns with
  | none => exact (hkeeps .anything trivial hrest).1
  | some e =>
      obtain ⟨result, later, -, hlast⟩ := run_bind_ok hrest
      exact (hkeeps result trivial hlast).1

-- A list of parameters is accepted exactly when each type that is written in it converts, one after
-- another, and the list keeps to the grammar. The signature has the parameters that it describes.
theorem params_exact (line : Int32) (written : List Param) (before : BuildState) :
    ((∃ scan after, params line written before = .ok scan after) ↔
      WellOrdered written ∧ ∃ records,
        ConvertsEach ((written.flatMap (·.hint?.toList)).map (before.names, ·)) before.records
          records) ∧
    (∀ scan after, params line written before = .ok scan after →
      Describes written scan.params scan.starArgs scan.starStarArgs) ∧
    ∀ returns raises mutators s after,
      signature line written returns raises mutators before = .ok s after →
        Describes written s.params s.starArgs s.starStarArgs := by
  refine ⟨?_, fun scan after h => params_describes h,
    fun returns raises mutators s after h => signature_describes h⟩
  simp only [params_ok_iff]
  constructor
  · rintro ⟨scan, after, hrun⟩
    obtain ⟨hc, -, hconverts⟩ := (scans_iff line ParamScan.sound_start).mp ⟨scan, hrun⟩
    exact ⟨ParamScan.continues_start.mp hc, after.records, hconverts⟩
  · rintro ⟨hwritten, records, hconverts⟩
    have hc := ParamScan.continues_start.mpr hwritten
    have hread : ∃ last, written.foldlM (addParam line) .start before =
        .ok last ⟨before.names, records⟩ ∧ last.isDangling = false :=
      (scans_iff line ParamScan.sound_start).mpr ⟨hc, rfl, hconverts⟩
    obtain ⟨scan, hrun⟩ := hread
    exact ⟨scan, _, hrun⟩

-- `x: int, y = ..., *, z, **options`
theorem params_exact_keywords : ∃ scan after,
    params 1 [.ordinary "x" (some (.name "int")) none, .ordinary "y" none (some .ellipsis),
      .bareStar, .ordinary "z" none none, .doubleStar "options" none] ⟨.empty true, .none⟩ =
        .ok scan after ∧
      scan.params.map Parameter.flags =
        [(("x" : Text), false, false), ("y", true, false), ("z", false, true)] ∧
      (scan.params.filter (!·.keywordOnly)).length = 2 ∧
      scan.starArgs.isSome = false ∧ scan.starStarArgs.isSome = true := by
  have hexact := params_exact 1 [.ordinary "x" (some (.name "int")) none,
    .ordinary "y" none (some .ellipsis), .bareStar, .ordinary "z" none none,
    .doubleStar "options" none] ⟨.empty true, .none⟩
  have hwritten : WellOrdered [.ordinary "x" (some (.name "int")) none,
      .ordinary "y" none (some .ellipsis), .bareStar, .ordinary "z" none none,
      .doubleStar "options" none] := by
    refine ⟨by decide, by decide, ?_, ?_⟩
    · simp [throughout_cons, throughout_nil, Param.isOpenEnded]
    · simp [throughout_cons, throughout_nil, ordinaryAmong, Param.isOrdinary]
  obtain ⟨scan, after, hrun⟩ := hexact.1.mpr ⟨hwritten, .none, .cons rfl (.nil _)⟩
  have h := hexact.2.1 scan after hrun
  exact ⟨scan, after, hrun, h.flags, h.positional, h.starArgs, h.starStarArgs⟩

end Build

end TypeStub
