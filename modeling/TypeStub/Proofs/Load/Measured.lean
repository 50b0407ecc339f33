import Mathlib.Algebra.Ring.Nat
import TypeStub.Load
import TypeStub.Proofs.Table.Ordered

-- What the metrics say after any number of stubs were loaded with them.
namespace TypeStub.Load

-- A stub to be loaded.
structure Call where
  request : Request
  source : Text

-- What a module adds to the counters.
def moduleCounts (module : StubModule) : List (Text × Nat) :=
  [("build.classes", module.classes.length), ("build.functions", module.functions.length),
    ("build.methods", (module.classes.flatMap (·.methods)).length),
    ("build.constants", module.constants.length), ("parse.inputs", 1)]

namespace Call

def name (digest : Hasher) (call : Call) : Except DigestError Text :=
  moduleName digest call.request call.source

def result (digest : Hasher) (call : Call) : Except Diagnostic StubModule :=
  load digest call.request call.source

def module? (digest : Hasher) (call : Call) : Option StubModule := (call.result digest).toOption

-- The tokens that a call reads. A call whose source has no digest to name it reads none.
def tokenCount (digest : Hasher) (call : Call) : Nat :=
  match call.name digest with
  | .ok _ => (tokenize (sourceLines call.source)).length
  | .error _ => 0

-- The stages that a call comes to: each one if all before it went well.
inductive Reaches (digest : Hasher) (call : Call) : Text → Prop
  | lex {name : Text} : call.name digest = .ok name → Reaches digest call "Lex"
  | parse {name : Text} : call.name digest = .ok name → Reaches digest call "Parse"
  | build {name : Text} {body : List Stmt} : call.name digest = .ok name →
      parseSource call.source = .ok body → Reaches digest call "Build"
  | validate {name : Text} {body : List Stmt} {built : Declare.Built} :
      call.name digest = .ok name → parseSource call.source = .ok body →
      Load.build name call.request.target body = .ok built → Reaches digest call "Validate"

-- What a call adds to the counters. Only a module that is returned is counted.
def counts (digest : Hasher) (call : Call) : List (Text × Nat) :=
  match call.name digest with
  | .ok _ =>
      ("lex.tokens", (tokenize (sourceLines call.source)).length) ::
        ((call.module? digest).map moduleCounts).getD []
  | .error _ => []

end Call

-- Loads one stub after another with the same metrics.
def loadEach {m : Type → Type} [Monad m] (clock : m Nat) (digest : Hasher) (calls : List Call) :
    StateT Metrics m (List (Except Diagnostic StubModule)) :=
  calls.mapM fun call => loadMeasured clock digest call.request call.source

-- The modules of the calls that succeed.
def modules (digest : Hasher) (calls : List Call) : List StubModule :=
  calls.filterMap (Call.module? digest)

-- The value of a counter, which is zero before it counts.
def total (m : Metrics) (key : Text) : UInt64 := (m.counters.get? key).getD 0

-- What the metrics say about a sequence of calls. Counters wrap.
structure Summarizes (digest : Hasher) (calls : List Call) (m : Metrics) : Prop where
  tokens : total m "lex.tokens" = .ofNat (calls.map (Call.tokenCount digest)).sum
  classes : total m "build.classes" = .ofNat ((modules digest calls).map (·.classes.length)).sum
  functions : total m "build.functions" = .ofNat ((modules digest calls).map (·.functions.length)).sum
  methods : total m "build.methods" =
    .ofNat ((modules digest calls).map fun module => (module.classes.map (·.methods.length)).sum).sum
  constants : total m "build.constants" = .ofNat ((modules digest calls).map (·.constants.length)).sum
  inputs : total m "parse.inputs" = .ofNat (modules digest calls).length
  ok : m.gauges.get? "parse.ok" =
    calls.getLast?.map fun call => if (call.module? digest).isSome then 1 else 0
  durations : ∀ stage, stage ∈ m.durations.names ↔ ∃ call ∈ calls, call.Reaches digest stage
  running : m.running = []

-- The time of a stage that is over.
def spend (stage : Text) (time : UInt64) (m : Metrics) : Metrics :=
  { m with durations := m.durations.update stage fun before => before.getD 0 + time }

-- Adds the counts of a call to the counters.
def tally (counts : List (Text × Nat)) (counters : Table UInt64) : Table UInt64 :=
  counts.foldl (fun table (name, n) => table.update name fun before => before.getD 0 + .ofNat n)
    counters

-- What one call does to metrics in which no stage runs.
structure Recorded (digest : Hasher) (call : Call) (m m' : Metrics) : Prop where
  counters : m'.counters = tally (call.counts digest) m.counters
  gauges : m'.gauges = m.gauges.set "parse.ok" (if (call.module? digest).isSome then 1 else 0)
  durations : ∀ stage, stage ∈ m'.durations.names ↔
    stage ∈ m.durations.names ∨ call.Reaches digest stage
  running : m'.running = []

section

variable {σ α β : Type} {digest : Hasher} {clock : StateM σ Nat} {call : Call} {m m' : Metrics}
  {stage other : Text}

theorem mem_names_spend {time : UInt64} : other ∈ (spend stage time m).durations.names ↔
    other = stage ∨ other ∈ m.durations.names := by
  rw [spend, Table.names_update, mem_insertSorted]

theorem Call.not_reaches {e : DigestError} (h : call.name digest = .error e) :
    ¬ call.Reaches digest stage := by
  intro hstage
  cases hstage with
  | lex hname => cases h.symm.trans hname
  | parse hname => cases h.symm.trans hname
  | build hname _ => cases h.symm.trans hname
  | validate hname _ _ => cases h.symm.trans hname

theorem Call.reaches_of_parse_error {name : Text} {d : Diagnostic}
    (hn : call.name digest = .ok name) (h : parseSource call.source = .error d) :
    call.Reaches digest stage ↔ stage = "Lex" ∨ stage = "Parse" := by
  constructor
  · intro hstage
    cases hstage with
    | lex => exact .inl rfl
    | parse => exact .inr rfl
    | build _ hparse => cases h.symm.trans hparse
    | validate _ hparse _ => cases h.symm.trans hparse
  · rintro (rfl | rfl)
    · exact .lex hn
    · exact .parse hn

theorem Call.reaches_of_build_error {name : Text} {body : List Stmt} {fault : Fault}
    (hn : call.name digest = .ok name) (h : parseSource call.source = .ok body)
    (h' : build name call.request.target body = .error fault) :
    call.Reaches digest stage ↔ stage = "Lex" ∨ stage = "Parse" ∨ stage = "Build" := by
  constructor
  · intro hstage
    cases hstage with
    | lex => exact .inl rfl
    | parse => exact .inr (.inl rfl)
    | build => exact .inr (.inr rfl)
    | validate hname hparse hbuild =>
        obtain rfl := Except.ok.inj (hn.symm.trans hname)
        obtain rfl := Except.ok.inj (h.symm.trans hparse)
        cases h'.symm.trans hbuild
  · rintro (rfl | rfl | rfl)
    · exact .lex hn
    · exact .parse hn
    · exact .build hn h

theorem Call.reaches_of_built {name : Text} {body : List Stmt} {built : Declare.Built}
    (hn : call.name digest = .ok name) (h : parseSource call.source = .ok body)
    (h' : build name call.request.target body = .ok built) :
    call.Reaches digest stage ↔
      stage = "Lex" ∨ stage = "Parse" ∨ stage = "Build" ∨ stage = "Validate" := by
  constructor
  · intro hstage
    cases hstage with
    | lex => exact .inl rfl
    | parse => exact .inr (.inl rfl)
    | build => exact .inr (.inr (.inl rfl))
    | validate => exact .inr (.inr (.inr rfl))
  · rintro (rfl | rfl | rfl | rfl)
    · exact .lex hn
    · exact .parse hn
    · exact .build hn h
    · exact .validate hn h h'

theorem bind_apply (p : StateT Metrics (StateM σ) α) (f : α → StateT Metrics (StateM σ) β)
    (m : Metrics) (s : σ) : (p >>= f) m s = f (p m s).1.1 (p m s).1.2 (p m s).2 := rfl

theorem modify_bind_apply (update : Metrics → Metrics) (f : PUnit → StateT Metrics (StateM σ) β)
    (m : Metrics) (s : σ) : (modify update >>= f) m s = f ⟨⟩ (update m) s := rfl

-- A stage that is over leaves its time, and it does not run any more.
theorem timed_eq (hrunning : m.running = []) (clock : StateM σ Nat) (stage : Text)
    (work : Unit → α) (s : σ) :
    ∃ time s', timed clock stage work m s = ((work (), spend stage time m), s') := by
  obtain ⟨running, durations, counters, gauges⟩ := m
  obtain rfl : running = [] := hrunning
  let started := clock s
  let stopped := clock started.2
  refine ⟨(stopped.1 - started.1).toUInt64, stopped.2, ?_⟩
  change ((work (), (Metrics.start ⟨[], durations, counters, gauges⟩ stage started.1).stop
    stage stopped.1), stopped.2) = _
  simp [Metrics.start, Metrics.stop, Table.set, Table.update, Table.remove, spend]

-- A call that fails after it was named has counted its tokens only.
theorem Recorded.failed (m' : Metrics) {name : Text} {d : Diagnostic}
    (hn : call.name digest = .ok name) (hresult : call.result digest = .error d)
    (hrunning : m'.running = []) (hcounters : m'.counters = m.counters)
    (hgauges : m'.gauges = m.gauges)
    (hdurations : ∀ stage, stage ∈ m'.durations.names ↔
      stage ∈ m.durations.names ∨ call.Reaches digest stage) :
    Recorded digest call m
      (Load.failed (m'.count "lex.tokens" (countOf (tokenize (sourceLines call.source))))) where
  counters := by
    rw [Call.counts, hn, Call.module?, hresult, ← hcounters]
    rfl
  gauges := by
    rw [Call.module?, hresult, ← hgauges]
    rfl
  durations := hdurations
  running := hrunning

theorem Recorded.unnamed {e : DigestError} {d : Diagnostic} (hn : call.name digest = .error e)
    (hresult : call.result digest = .error d) (hrunning : m.running = []) :
    Recorded digest call m (Load.failed m) where
  counters := by
    rw [Call.counts, hn]
    rfl
  gauges := by
    rw [Call.module?, hresult]
    rfl
  durations stage := (or_iff_left (Call.not_reaches hn)).symm
  running := hrunning

-- A call with a name ends where the source does not parse, where the module is not built, where it
-- is not valid, or with the module.
theorem loadMeasuredAs_eq (hrunning : m.running = []) (clock : StateM σ Nat) {call : Call}
    {name : Text} (hn : call.name digest = .ok name) (s : σ) :
    ∃ m' s', loadMeasuredAs clock name call.request call.source m s =
      ((call.result digest, m'), s') ∧ Recorded digest call m m' := by
  let lines := sourceLines call.source
  let tokens := tokenize lines
  obtain ⟨lex, s₁, hlex⟩ := timed_eq hrunning clock "Lex" (fun _ => (lines, tokens)) s
  let m₁ := spend "Lex" lex m
  obtain ⟨parse, s₂, hparse⟩ := timed_eq (m := m₁) hrunning clock "Parse"
    (fun _ => parseLines lines tokens) s₁
  let m₂ := (spend "Parse" parse m₁).count "lex.tokens" (countOf tokens)
  have hresult : call.result digest = loadAs name call.request call.source := by
    rw [Call.result, load, show moduleName digest call.request call.source = .ok name from hn]
  have hsource : parseLines lines tokens = parseSource call.source := rfl
  unfold loadMeasuredAs
  rw [bind_apply, hlex]
  dsimp only
  rw [bind_apply, hparse, hsource]
  dsimp only
  rw [modify_bind_apply]
  rw [loadAs] at hresult
  cases hbody : parseSource call.source with
  | error d =>
      simp only [hbody] at hresult
      refine ⟨Load.failed m₂, s₂, by rw [hresult]; rfl, ?_⟩
      refine .failed (spend "Parse" parse m₁) hn hresult hrunning rfl rfl fun stage => ?_
      rw [mem_names_spend, mem_names_spend, Call.reaches_of_parse_error hn hbody]
      simp only [or_comm, or_left_comm, or_assoc]
  | ok body =>
      simp only [hbody] at hresult
      obtain ⟨build, s₃, hbuild⟩ := timed_eq (m := m₂) hrunning clock "Build"
        (fun _ => Load.build name call.request.target body) s₂
      let m₃ := spend "Build" build m₂
      dsimp only
      rw [bind_apply, hbuild]
      dsimp only
      cases hbuilt : Load.build name call.request.target body with
      | error fault =>
          simp only [hbuilt] at hresult
          refine ⟨Load.failed m₃, s₃, by rw [hresult]; rfl, ?_⟩
          refine .failed (spend "Build" build (spend "Parse" parse m₁)) hn hresult hrunning rfl rfl
            fun stage => ?_
          rw [mem_names_spend, mem_names_spend, mem_names_spend,
            Call.reaches_of_build_error hn hbody hbuilt]
          simp only [or_comm, or_left_comm, or_assoc]
      | ok built =>
          simp only [hbuilt] at hresult
          obtain ⟨valid, s₄, hvalid⟩ := timed_eq (m := m₃) hrunning clock "Validate"
            (fun _ => validate built) s₃
          let m₄ := spend "Validate" valid m₃
          dsimp only
          rw [bind_apply, hvalid]
          dsimp only
          have hdurations (stage : Text) : stage ∈ m₄.durations.names ↔
              stage ∈ m.durations.names ∨ call.Reaches digest stage := by
            rw [mem_names_spend, mem_names_spend, Call.reaches_of_built hn hbody hbuilt]
            change _ ∨ _ ∨ stage ∈ (spend "Parse" parse m₁).durations.names ↔ _
            rw [mem_names_spend, mem_names_spend]
            simp only [or_comm, or_left_comm, or_assoc]
          cases hunique : validate built with
          | error fault =>
              simp only [hunique] at hresult
              refine ⟨Load.failed m₄, s₄, by rw [hresult]; rfl, ?_⟩
              exact .failed (spend "Validate" valid (spend "Build" build (spend "Parse" parse m₁)))
                hn hresult hrunning rfl rfl hdurations
          | ok _ =>
              simp only [hunique] at hresult
              refine ⟨succeeded (qualify call.request built.module) m₄, s₄,
                by rw [hresult]; rfl, ?_, ?_, hdurations, hrunning⟩
              · rw [Call.counts, hn, Call.module?, hresult]
                rfl
              · rw [Call.module?, hresult]
                rfl

theorem loadMeasured_eq (hrunning : m.running = []) (clock : StateM σ Nat) (digest : Hasher)
    (call : Call) (s : σ) :
    ∃ m' s', loadMeasured clock digest call.request call.source m s =
      ((call.result digest, m'), s') ∧ Recorded digest call m m' := by
  unfold loadMeasured
  cases hn : moduleName digest call.request call.source with
  | error e =>
      have hresult : call.result digest = .error (ofDigestError call.request e) := by
        rw [Call.result, load, hn]
      exact ⟨Load.failed m, s, by rw [hresult]; rfl, .unnamed hn hresult hrunning⟩
  | ok name => exact loadMeasuredAs_eq hrunning clock hn s

-- What stands under a name in a list of counts.
def amount (key : Text) (counts : List (Text × Nat)) : Nat :=
  ((counts.filter (·.1 = key)).map (·.2)).sum

theorem amount_cons (key name : Text) (n : Nat) (counts : List (Text × Nat)) :
    amount key ((name, n) :: counts) = (if name = key then n else 0) + amount key counts := by
  rw [amount, amount, List.filter_cons]
  by_cases h : name = key <;> simp [h]

theorem get?_tally {counters : Table UInt64} (h : counters.Ordered) (counts : List (Text × Nat))
    (key : Text) : ((tally counts counters).get? key).getD 0 =
      (counters.get? key).getD 0 + .ofNat (amount key counts) := by
  induction counts generalizing counters with
  | nil => simp [tally, amount]
  | cons entry rest ih =>
      obtain ⟨name, n⟩ := entry
      change ((tally rest _).get? key).getD 0 = _
      rw [ih (h.update ..), amount_cons]
      by_cases heq : name = key
      · subst heq
        rw [h.get?_update, if_pos rfl, UInt64.ofNat_add, ← UInt64.add_assoc]
        rfl
      · rw [Table.get?_update_of_ne (Ne.symm heq), if_neg heq, Nat.zero_add]

theorem amount_flatMap (key : Text) (calls : List Call) :
    amount key (calls.flatMap (Call.counts digest)) =
      (calls.map fun call => amount key (call.counts digest)).sum := by
  induction calls with
  | nil => rfl
  | cons call rest ih =>
      rw [List.flatMap_cons, List.map_cons, List.sum_cons, ← ih]
      simp [amount]

-- What a run over some calls has left, field by field.
structure Kept (digest : Hasher) (calls : List Call) (m : Metrics) : Prop where
  counters : m.counters = tally (calls.flatMap (Call.counts digest)) []
  gauges : m.gauges = (calls.getLast?.map fun call =>
    (("parse.ok" : Text), if (call.module? digest).isSome then 1 else 0)).toList
  durations : ∀ stage, stage ∈ m.durations.names ↔ ∃ call ∈ calls, call.Reaches digest stage
  running : m.running = []

theorem Kept.empty : Kept digest [] .empty where
  counters := rfl
  gauges := rfl
  durations := by simp [Metrics.empty, Table.names]
  running := rfl

theorem Kept.snoc {front : List Call} (h : Kept digest front m) (hcall : Recorded digest call m m') :
    Kept digest (front ++ [call]) m' where
  counters := by
    rw [hcall.counters, h.counters, List.flatMap_append, List.flatMap_singleton, tally, tally,
      tally, List.foldl_append]
  gauges := by
    rw [hcall.gauges, h.gauges, List.getLast?_concat]
    cases front.getLast? with
    | none => rfl
    | some last =>
        change Table.update _ _ [((_ : Text), _)] = _
        rw [Table.update, if_neg (List.lt_irrefl _), if_pos rfl]
        rfl
  durations stage := by
    rw [hcall.durations, h.durations]
    simp [or_and_right, exists_or]
  running := hcall.running

-- A run over more calls.
theorem loadEach_eq (digest : Hasher) (clock : StateM σ Nat) (calls : List Call) {front : List Call}
    (h : Kept digest front m) (s : σ) : ∃ m' s', loadEach clock digest calls m s =
      ((calls.map (Call.result digest), m'), s') ∧ Kept digest (front ++ calls) m' := by
  induction calls generalizing front m s with
  | nil => exact ⟨m, s, rfl, by rwa [List.append_nil]⟩
  | cons call rest ih =>
      obtain ⟨m₁, s₁, hload, hcall⟩ := loadMeasured_eq h.running clock digest call s
      obtain ⟨m₂, s₂, hrest, hkept⟩ := ih (h.snoc hcall) s₁
      refine ⟨m₂, s₂, ?_, by rwa [List.append_cons]⟩
      rw [loadEach, List.mapM_cons, bind_apply, hload]
      dsimp only
      rw [bind_apply, ← loadEach, hrest]
      rfl

theorem Kept.total {calls : List Call} (h : Kept digest calls m) {key : Text} {size : Call → Nat}
    (hsize : ∀ call : Call, amount key (call.counts digest) = size call) :
    Load.total m key = .ofNat (calls.map size).sum := by
  rw [Load.total, h.counters, get?_tally .nil, amount_flatMap, funext hsize]
  simp [Table.get?]

-- Only the modules that are returned add to a counter other than that of the tokens.
theorem Kept.total_modules {calls : List Call} (h : Kept digest calls m) {key : Text}
    {size : StubModule → Nat} (hkey : "lex.tokens" ≠ key)
    (hsize : ∀ module, amount key (moduleCounts module) = size module) :
    Load.total m key = .ofNat ((modules digest calls).map size).sum := by
  have hcall (call : Call) :
      amount key (call.counts digest) = ((call.module? digest).map size).getD 0 := by
    rw [Call.counts]
    cases hn : call.name digest with
    | error e =>
        have hmodule : call.module? digest = none := by
          rw [Call.module?, Call.result, load,
            show moduleName digest call.request call.source = .error e from hn]
          rfl
        rw [hmodule]
        rfl
    | ok name =>
        dsimp only
        rw [amount_cons, if_neg hkey, Nat.zero_add]
        cases call.module? digest with
        | none => rfl
        | some module => exact hsize module
  rw [h.total hcall]
  congr 1
  clear h
  induction calls with
  | nil => rfl
  | cons call rest ih =>
      rw [List.map_cons, List.sum_cons, ih, modules, modules, List.filterMap_cons]
      cases call.module? digest <;> simp

theorem Kept.summarizes {calls : List Call} (h : Kept digest calls m) :
    Summarizes digest calls m where
  tokens := h.total fun call => by
    rw [Call.counts, Call.tokenCount]
    cases call.name digest with
    | error e => rfl
    | ok name => cases call.module? digest <;> simp [amount, moduleCounts]
  classes := h.total_modules (by decide) fun module => by simp [amount, moduleCounts]
  functions := h.total_modules (by decide) fun module => by simp [amount, moduleCounts]
  methods := h.total_modules (by decide) fun module => by
    simp [amount, moduleCounts, List.length_flatMap]
  constants := h.total_modules (by decide) fun module => by simp [amount, moduleCounts]
  inputs := by
    have hones : Load.total m "parse.inputs" = .ofNat ((modules digest calls).map fun _ => 1).sum :=
      h.total_modules (by decide) fun module => by simp [amount, moduleCounts]
    rw [hones, List.map_const', List.sum_replicate_nat, Nat.mul_one]
  ok := by
    rw [h.gauges]
    cases calls.getLast? with
    | none => rfl
    | some last => exact Table.get?_cons_self _
  durations := h.durations
  running := h.running

-- Stubs that are loaded with the same metrics, one after another, come out as they do without, and
-- the metrics summarize them.
theorem loadEach_summarizes (digest : Hasher) (clock : StateM σ Nat) (calls : List Call) (s : σ) :
    ∃ metrics s', (loadEach clock digest calls).run .empty s =
      ((calls.map fun call => load digest call.request call.source, metrics), s') ∧
        Summarizes digest calls metrics := by
  obtain ⟨metrics, s', hrun, hkept⟩ := loadEach_eq digest clock calls .empty s
  exact ⟨metrics, s', hrun, hkept.summarizes⟩

end

end TypeStub.Load
