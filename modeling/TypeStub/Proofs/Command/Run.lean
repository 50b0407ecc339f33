import TypeStub.Proofs.Command.Replace

-- What a run of the command does, input by input.
namespace TypeStub.Command

-- An input with the standard input that it finds.
structure Turn where
  input : Text
  stdin : Text

-- What an input leaves of the standard input.
def Turn.rest (turn : Turn) : Text := if turn.input = standardInput then [] else turn.stdin

def turns (stdin : Text) : List Text → List Turn
  | [] => []
  | input :: inputs => ⟨input, stdin⟩ :: turns (Turn.rest ⟨input, stdin⟩) inputs

def Turn.source (files : Files) (turn : Turn) : Except ReadError Text :=
  if turn.input = standardInput then .ok turn.stdin else files.read turn.input

-- The canonical text of an input, or why there is none.
def Turn.text (digest : Hasher) (options : Options) (files : Files) (turn : Turn) :
    Except Failure Text :=
  match turn.source files with
  | .error e => .error (.unreadable turn.input e)
  | .ok source =>
      match load digest (request options turn.input) source with
      | .error d => .error (.refused d)
      | .ok module => .ok (printed module)

-- What is printed of an input before it is loaded: its outline, on request.
def Turn.dump (options : Options) (files : Files) (turn : Turn) : Text :=
  if options.dumpAst then
    match (turn.source files).toOption.bind fun source => (parseSource source).toOption with
    | some body => outline (label turn.input) body
    | none => []
  else []

-- The turns that are taken: those up to the first one that fails.
def taken (digest : Hasher) (options : Options) (files : Files) : List Turn → List Turn
  | [] => []
  | turn :: rest =>
      match turn.text digest options files with
      | .ok _ => turn :: taken digest options files rest
      | .error _ => [turn]

-- The world after some turns: they leave some of its standard input, and their outlines stand on
-- standard output.
def took (options : Options) (turns : List Turn) (world : World) : World :=
  { world with
    input := turns.foldl (fun _ turn => turn.rest) world.input
    output := world.output ++ turns.flatMap (Turn.dump options world.files) }

-- A part of a run with its result, whatever is measured and reported on the way.
def Ends {α : Type} (p : ExceptT Failure (StateT Metrics (StateM World)) α) (world : World)
    (result : Except Failure α) (after : World) : Prop :=
  ∀ metrics errors, ∃ metrics' errors',
    p.run metrics { world with errors := errors } =
      ((result, metrics'), { after with errors := errors' })

-- A part of a run that leaves the world as it is, whatever it measures.
def Measures {α : Type} (p : StateT Metrics (StateM World) α) (world : World) (a : α) : Prop :=
  ∀ metrics, ∃ metrics', p metrics world = ((a, metrics'), world)

section

variable {α β : Type} {p : StateT Metrics (StateM World) α} {world : World} {a : α}

theorem Measures.pure (a : α) : Measures (pure a) world a := fun metrics => ⟨metrics, rfl⟩

theorem Measures.modify (f : Metrics → Metrics) : Measures (modify f) world ⟨⟩ :=
  fun metrics => ⟨f metrics, rfl⟩

theorem Measures.bind {f : α → StateT Metrics (StateM World) β} {b : β} (hp : Measures p world a)
    (hf : Measures (f a) world b) : Measures (p >>= f) world b := by
  intro metrics
  obtain ⟨metrics', hfirst⟩ := hp metrics
  obtain ⟨metrics'', hrest⟩ := hf metrics'
  refine ⟨metrics'', ?_⟩
  change (match p metrics world with | ((a, metrics), after) => f a metrics after) = _
  rw [hfirst]
  exact hrest

-- The clock of a world stands still.
theorem measures_timed (stage : Text) (work : Unit → α) :
    Measures (Load.timed (m := StateM World) Host.clock stage work) world (work ()) :=
  fun _ => ⟨_, rfl⟩

theorem measures_loadAs (name : Text) (request : Request) (source : Text) (world : World) :
    Measures (Load.loadMeasuredAs (m := StateM World) Host.clock name request source) world
      (Load.loadAs name request source) := by
  refine (measures_timed "Lex" _).bind ((measures_timed "Parse" _).bind ?_)
  refine (Measures.modify _).bind ?_
  have hparse : parseLines (sourceLines source) (tokenize (sourceLines source)) =
      parseSource source := rfl
  rw [Load.loadAs, hparse]
  cases parseSource source with
  | error d => exact (Measures.modify _).bind (.pure _)
  | ok body =>
      refine (measures_timed "Build" _).bind ?_
      dsimp only
      cases Load.build name request.target body with
      | error fault => exact (Measures.modify _).bind (.pure _)
      | ok built =>
          refine (measures_timed "Validate" _).bind ?_
          dsimp only
          cases Load.validate built with
          | error fault => exact (Measures.modify _).bind (.pure _)
          | ok valid => exact (Measures.modify _).bind (.pure _)

-- Measuring changes nothing about what is loaded.
theorem measures_load (digest : Hasher) (request : Request) (source : Text) (world : World) :
    Measures (loadMeasured (m := StateM World) Host.clock digest request source) world
      (load digest request source) := by
  unfold loadMeasured load
  cases Load.moduleName digest request source with
  | error e => exact (Measures.modify _).bind (.pure _)
  | ok name => exact measures_loadAs name request source world

end

section

variable {α β : Type} {p : ExceptT Failure (StateT Metrics (StateM World)) α}
  {world middle after : World}

theorem Ends.pure (a : α) : Ends (pure a) world (.ok a) world :=
  fun metrics errors => ⟨metrics, errors, rfl⟩

theorem Ends.throw (e : Failure) :
    Ends (throw e : ExceptT Failure (StateT Metrics (StateM World)) α) world (.error e) world :=
  fun metrics errors => ⟨metrics, errors, rfl⟩

-- What comes after a part starts where the part ends.
theorem run_bind_eq (f : α → ExceptT Failure (StateT Metrics (StateM World)) β) (metrics : Metrics)
    (world : World) : (p >>= f).run metrics world =
      let ((result, metrics), after) := p.run metrics world
      ExceptT.bindCont f result metrics after := rfl

theorem Ends.bind {f : α → ExceptT Failure (StateT Metrics (StateM World)) β} {a : α}
    {result : Except Failure β} (hp : Ends p world (.ok a) middle)
    (hf : Ends (f a) middle result after) : Ends (p >>= f) world result after := by
  intro metrics errors
  obtain ⟨metrics', errors', hfirst⟩ := hp metrics errors
  obtain ⟨metrics'', errors'', hrest⟩ := hf metrics' errors'
  refine ⟨metrics'', errors'', ?_⟩
  rw [run_bind_eq, hfirst]
  exact hrest

theorem Ends.bind_error {f : α → ExceptT Failure (StateT Metrics (StateM World)) β}
    {e : Failure} (hp : Ends p world (.error e) after) : Ends (p >>= f) world (.error e) after := by
  intro metrics errors
  obtain ⟨metrics', errors', hfirst⟩ := hp metrics errors
  refine ⟨metrics', errors', ?_⟩
  rw [run_bind_eq, hfirst]
  rfl

theorem Ends.lift {action : StateM World α} {a : α} (h : ∀ errors, ∃ errors',
      action { world with errors := errors } = (a, { after with errors := errors' })) :
    Ends (liftM action) world (.ok a) after := by
  intro metrics errors
  obtain ⟨errors', hrun⟩ := h errors
  refine ⟨metrics, errors', ?_⟩
  change (match action { world with errors := errors } with
    | (a, after) => ((Except.ok a, metrics), after)) = _
  rw [hrun]

theorem Ends.measured {part : StateT Metrics (StateM World) α} {a : α}
    (h : ∀ world, Measures part world a) : Ends (liftM part) world (.ok a) world := by
  intro metrics errors
  obtain ⟨metrics', hrun⟩ := h { world with errors := errors } metrics
  refine ⟨metrics', errors, ?_⟩
  change (match part metrics { world with errors := errors } with
    | ((a, metrics), after) => ((Except.ok a, metrics), after)) = _
  rw [hrun]

theorem readInput_run (input : Text) (world : World) :
    readInput (m := StateM World) input world =
      (Turn.source world.files ⟨input, world.input⟩,
        { world with input := Turn.rest ⟨input, world.input⟩ }) := by
  unfold readInput Turn.source Turn.rest
  by_cases hinput : input = standardInput
  · simp only [if_pos hinput]
    rfl
  · simp only [if_neg hinput]
    rfl

theorem Ends.print (text : Text) (world : World) :
    Ends (liftM (Host.print (m := StateM World) text)) world (.ok ())
      { world with output := world.output ++ text } := .lift fun errors => ⟨errors, rfl⟩

-- Loading a source that was read ends with its text, or with why there is none.
theorem ends_loading (digest : Hasher) (options : Options) (input source : Text) (world : World) :
    Ends (do
      match ← loadMeasured (m := StateM World) Host.clock digest (request options input) source with
      | .error d => throw (.refused d)
      | .ok module => return printed module) world
      (match load digest (request options input) source with
      | .error d => .error (.refused d)
      | .ok module => .ok (printed module)) world := by
  refine (Ends.measured fun world => measures_load digest _ source world).bind ?_
  cases load digest (request options input) source with
  | error d => exact .throw _
  | ok module => exact .pure _

theorem ends_canonical (digest : Hasher) (options : Options) {turn : Turn}
    (hturn : turn.stdin = world.input) :
    Ends (canonical (m := StateM World) digest options turn.input) world
      (turn.text digest options world.files)
      { world with
        input := turn.rest
        output := world.output ++ turn.dump options world.files } := by
  have hread : Ends (liftM (readInput (m := StateM World) turn.input)) world
      (.ok (turn.source world.files)) { world with input := turn.rest } := by
    refine .lift fun errors => ⟨errors, ?_⟩
    rw [readInput_run, ← hturn]
  have hempty : world.output ++ [] = world.output := List.append_nil _
  unfold Turn.text Turn.dump
  refine hread.bind ?_
  cases turn.source world.files with
  | error e =>
      simp only [Except.toOption, Option.bind_none, ite_self, hempty]
      exact .throw _
  | ok source =>
      simp only [Except.toOption, Option.bind_some]
      by_cases hdump : options.dumpAst = true
      · simp only [if_pos hdump]
        cases parseSource source with
        | error d =>
            dsimp only
            rw [hempty]
            exact ends_loading digest options turn.input source _
        | ok body => exact (Ends.print _ _).bind (ends_loading digest options turn.input source _)
      · simp only [if_neg hdump, hempty]
        exact ends_loading digest options turn.input source _

theorem ends_inputs (digest : Hasher) (options : Options) (inputs : List Text) (world : World) :
    Ends (inputs.mapM (canonical (m := StateM World) digest options)) world
      ((turns world.input inputs).mapM (Turn.text digest options world.files))
      (took options (taken digest options world.files (turns world.input inputs)) world) := by
  unfold took
  induction inputs generalizing world with
  | nil =>
      rw [turns, taken, List.flatMap_nil, List.append_nil]
      exact .pure []
  | cons input rest ih =>
      let turn : Turn := ⟨input, world.input⟩
      have hfirst := ends_canonical digest options (show turn.stdin = world.input from rfl)
      rw [List.mapM_cons, turns, List.mapM_cons, taken]
      cases ht : turn.text digest options world.files with
      | error e =>
          rw [ht] at hfirst
          dsimp only
          rw [List.flatMap_singleton]
          exact hfirst.bind_error
      | ok text =>
          rw [ht] at hfirst
          have hrest := ih { world with
            input := turn.rest
            output := world.output ++ turn.dump options world.files }
          refine hfirst.bind ?_
          dsimp only at hrest ⊢
          rw [List.flatMap_cons, ← List.append_assoc]
          cases hm : (turns turn.rest rest).mapM (Turn.text digest options world.files) with
          | error e =>
              rw [hm] at hrest
              exact hrest.bind_error
          | ok texts =>
              rw [hm] at hrest
              exact hrest.bind (.pure _)

theorem ends_deliver_print {options : Options} (hout : options.output = []) (text : Text)
    (world : World) :
    Ends (deliver (m := StateM World) options text) world (.ok ())
      { world with output := world.output ++ text } := by
  unfold deliver
  rw [if_pos hout]
  exact .print text world

theorem ends_deliver_replace {options : Options} (hout : options.output ≠ []) (text : Text)
    (world : World) :
    Ends (deliver (m := StateM World) options text) world
      ((replaced world.room world.files options.output text).1.mapError (.unwritable options.output))
      { world with files := (replaced world.room world.files options.output text).2 } := by
  unfold deliver
  rw [if_neg hout]
  have hreplace : Ends (liftM (replaceFile (m := StateM World) options.output text)) world
      (.ok (replaced world.room world.files options.output text).1)
      { world with files := (replaced world.room world.files options.output text).2 } :=
    .lift fun errors => ⟨errors, replaceFile_run options.output text _⟩
  refine hreplace.bind ?_
  cases (replaced world.room world.files options.output text).1 with
  | ok _ => exact .pure _
  | error e => exact .throw _

end

-- The texts of all inputs, or the first failure among them.
def texts (digest : Hasher) (options : Options) (world : World) : Except Failure (List Text) :=
  (turns world.input options.inputs).mapM (Turn.text digest options world.files)

-- The world after the turns of a run.
def inputsTaken (digest : Hasher) (options : Options) (world : World) : World :=
  took options (taken digest options world.files (turns world.input options.inputs)) world

-- How a run with an input finishes: with its exit status, before its delivery or after it. The
-- world after the run has these files, what the inputs leave of standard input, and on standard
-- output the outlines of the inputs and what is delivered there.
inductive Finishes (digest : Hasher) (options : Options) (world after : World) : Nat → Prop
  | stopped {failure : Failure} (ht : texts digest options world = .error failure)
      (hf : after.files = world.files) (hi : after.input = (inputsTaken digest options world).input)
      (ho : after.output = (inputsTaken digest options world).output) :
      Finishes digest options world after 1
  | printed {found : List Text} (ht : texts digest options world = .ok found)
      (hp : options.output = [])
      (hf : after.files = world.files) (hi : after.input = (inputsTaken digest options world).input)
      (ho : after.output = (inputsTaken digest options world).output ++ found.flatten) :
      Finishes digest options world after 0
  | replaced {found : List Text} (ht : texts digest options world = .ok found)
      (hp : options.output ≠ [])
      (hf : replaced world.room world.files options.output found.flatten = (.ok (), after.files))
      (ho : after.output = (inputsTaken digest options world).output) :
      Finishes digest options world after 0
  | refused {found : List Text} {e : WriteError} (ht : texts digest options world = .ok found)
      (hp : options.output ≠ [])
      (hf : replaced world.room world.files options.output found.flatten = (.error e, after.files))
      (ho : after.output = (inputsTaken digest options world).output) :
      Finishes digest options world after 1

section

variable {digest : Hasher} {options : Options} {world : World}

theorem ends_reports (world : World) : Ends (do
      let metrics ← get
      if options.metrics then Host.warn (m := StateM World) metrics.summaryText
      if options.metricsJson then Host.warn (m := StateM World) metrics.summaryJson) world
      (.ok ()) world := by
  intro metrics errors
  cases options.metrics <;> cases options.metricsJson <;> exact ⟨_, _, rfl⟩

theorem run_of_ends {result : Except Failure Unit} {after : World} (hi : options.inputs ≠ [])
    (h : Ends (work (m := StateM World) digest options) world result after) :
    ∃ errors, run (m := StateM World) digest options world =
      (if result.isOk then 0 else 1, { after with errors := errors }) := by
  obtain ⟨metrics, errors, hrun⟩ := h Metrics.empty world.errors
  have hstep : ((work (m := StateM World) digest options).run).run' Metrics.empty world =
      (result, { after with errors := errors }) := by
    change (match (work (m := StateM World) digest options).run Metrics.empty world with
      | ((result, _), after) => (result, after)) = _
    rw [hrun]
  unfold run
  rw [if_neg hi]
  cases result with
  | ok _ => exact ⟨errors, run_bind hstep⟩
  | error e => exact ⟨_, run_bind hstep⟩

theorem finishes_run (digest : Hasher) (hi : options.inputs ≠ []) (world : World) :
    Finishes digest options world (run (m := StateM World) digest options world).2
      (run (m := StateM World) digest options world).1 := by
  have hinputs : Ends (options.inputs.mapM (canonical (m := StateM World) digest options)) world
      (texts digest options world) (inputsTaken digest options world) :=
    ends_inputs digest options options.inputs world
  cases ht : texts digest options world with
  | error failure =>
      rw [ht] at hinputs
      obtain ⟨errors, hrun⟩ := run_of_ends hi hinputs.bind_error
      rw [hrun]
      exact .stopped ht rfl rfl rfl
  | ok found =>
      rw [ht] at hinputs
      by_cases hp : options.output = []
      · have hdeliver := ends_deliver_print hp found.flatten (inputsTaken digest options world)
        obtain ⟨errors, hrun⟩ := run_of_ends hi (hinputs.bind (hdeliver.bind (ends_reports _)))
        rw [hrun]
        exact .printed ht hp rfl rfl rfl
      · have hdeliver := ends_deliver_replace hp found.flatten (inputsTaken digest options world)
        have hfiles : (inputsTaken digest options world).files = world.files := rfl
        have hroom : (inputsTaken digest options world).room = world.room := rfl
        rw [hfiles, hroom] at hdeliver
        cases hr : replaced world.room world.files options.output found.flatten with
        | mk outcome files =>
            rw [hr] at hdeliver
            cases outcome with
            | ok _ =>
                obtain ⟨errors, hrun⟩ := run_of_ends hi
                  (hinputs.bind (hdeliver.bind (ends_reports _)))
                rw [hrun]
                exact .replaced ht hp hr rfl
            | error e =>
                obtain ⟨errors, hrun⟩ := run_of_ends hi (hinputs.bind hdeliver.bind_error)
                rw [hrun]
                exact .refused ht hp hr rfl

end

end TypeStub.Command
