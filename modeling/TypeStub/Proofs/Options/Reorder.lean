import TypeStub.Options
import TypeStub.Proofs.Text.Beginning

-- Command lines segment by segment, and what may change places on them.
namespace TypeStub.Options

-- The options that take a value.
inductive Valued
  | output
  | name
  | version
  | platform
  deriving DecidableEq

def Valued.beginning : Valued → Text
  | .output => "-o"
  | .name => "--name="
  | .version => "--python-version="
  | .platform => "--platform="

-- The options without a value.
inductive Flag
  | help
  | metrics
  | metricsJson
  | dumpAst
  deriving DecidableEq

def Flag.spellings : Flag → List Text
  | .help => ["-h", "--help"]
  | .metrics => ["--metrics"]
  | .metricsJson => ["--metrics-json"]
  | .dumpAst => ["--dump-ast"]

def has (options : Options) : Flag → Bool
  | .help => options.help
  | .metrics => options.metrics
  | .metricsJson => options.metricsJson
  | .dumpAst => options.dumpAst

-- What goes together on a command line: an option in one argument, `-o` with the argument after
-- it, or an input.
inductive Segment
  | option (argument : Text)
  | output (path : Text)
  | input (path : Text)
  deriving DecidableEq

-- A dash with something behind it.
def LooksLikeOption (argument : Text) : Prop := ∃ c rest, argument = '-' :: c :: rest

namespace Segment

def arguments : Segment → List Text
  | option argument => [argument]
  | output path => ["-o", path]
  | input path => [path]

def Formed : Segment → Prop
  | option argument => LooksLikeOption argument ∧ argument ≠ "--" ∧ argument ≠ "-o"
  | output _ => True
  | input path => ¬ LooksLikeOption path

-- The value that a segment gives to an option.
def value? (valued : Valued) : Segment → Option Text
  | option argument => Text.after? valued.beginning argument
  | output path => if valued = .output then some path else none
  | input _ => none

def input? : Segment → Option Text
  | input path => some path
  | _ => none

end Segment

-- The arguments of segments and, behind `--`, inputs as they stand.
def line (segments : List Segment) (verbatim : Option (List Text)) : List Text :=
  segments.flatMap Segment.arguments ++
    match verbatim with
    | none => []
    | some inputs => "--" :: inputs

-- The value that the last occurrence of an option gives to it.
def last? (segments : List Segment) (valued : Valued) : Option Text :=
  (segments.filterMap (Segment.value? valued)).getLast?

-- What the options are after a command line.
structure Holds (segments : List Segment) (verbatim : Option (List Text)) (options : Options) :
    Prop where
  flags : ∀ flag, options.has flag = true ↔
    ∃ spelling ∈ flag.spellings, Segment.option spelling ∈ segments
  output : options.output = (last? segments .output).getD []
  inputs : options.inputs = segments.filterMap Segment.input? ++ verbatim.getD []
  name : options.name = last? segments .name
  version : some options.target.version =
    ((last? segments .version).map Setting.version?).getD (some Target.standard.version)
  platform : options.target.platform = (last? segments .platform).getD Target.standard.platform

-- The same segments in another order. The inputs are in the same order, and so are the values of
-- each option.
structure Reorders (segments segments' : List Segment) : Prop where
  perm : segments.Perm segments'
  inputs : segments.filterMap Segment.input? = segments'.filterMap Segment.input?
  values : ∀ valued, segments.filterMap (Segment.value? valued) =
    segments'.filterMap (Segment.value? valued)

section

variable {segments segments' : List Segment} {verbatim : Option (List Text)}
  {options options' : Options}

-- A command line determines all options.
theorem Holds.unique (h : Holds segments verbatim options) (h' : Holds segments verbatim options') :
    options = options' := by
  have hflags (flag : Flag) : options.has flag = options'.has flag :=
    Bool.eq_iff_iff.mpr ((h.flags flag).trans (h'.flags flag).symm)
  have hversion := Option.some.inj (h.version.trans h'.version.symm)
  have hplatform := h.platform.trans h'.platform.symm
  have houtput := h.output.trans h'.output.symm
  have hinputs := h.inputs.trans h'.inputs.symm
  have hname := h.name.trans h'.name.symm
  obtain ⟨_, _, _, _, _, _, _, ⟨_, _⟩⟩ := options
  obtain ⟨_, _, _, _, _, _, _, ⟨_, _⟩⟩ := options'
  have hhelp := hflags .help
  have hmetrics := hflags .metrics
  have hjson := hflags .metricsJson
  have hdump := hflags .dumpAst
  simp only [has] at *
  rw [hhelp, hmetrics, hjson, hdump, houtput, hinputs, hname, hversion, hplatform]

theorem Reorders.holds (hr : Reorders segments segments') (h : Holds segments' verbatim options) :
    Holds segments verbatim options := by
  have hlast (valued : Valued) : last? segments valued = last? segments' valued := by
    rw [last?, hr.values, last?]
  refine ⟨fun flag => ?_, ?_, ?_, ?_, ?_, ?_⟩
  · rw [h.flags]
    exact exists_congr fun spelling => and_congr_right fun _ => hr.perm.mem_iff.symm
  · rw [h.output, hlast]
  · rw [h.inputs, hr.inputs]
  · rw [h.name, hlast]
  · rw [h.version, hlast]
  · rw [h.platform, hlast]

end

def Flag.setting : Flag → Setting
  | .help => .help
  | .metrics => .metrics
  | .metricsJson => .metricsJson
  | .dumpAst => .dumpAst

-- The setting of an option that takes a value, unless the value is none for it.
inductive Valued.Sets : Valued → Text → Setting → Prop
  | output (path : Text) : Sets .output path (.output path)
  | name (module : Text) : Sets .name module (.name module)
  | version {text : Text} {components : List Int} (h : Setting.version? text = some components) :
      Sets .version text (.version components)
  | platform (name : Text) : Sets .platform name (.platform name)

-- What a segment sets, form by form.
inductive Segment.Sets : Segment → Setting → Prop
  | flag {flag : Flag} {spelling : Text} (h : spelling ∈ flag.spellings) :
      Sets (.option spelling) flag.setting
  | attached {valued : Valued} {text : Text} {setting : Setting} (h : valued.Sets text setting) :
      Sets (.option (valued.beginning ++ text)) setting
  | separate (path : Text) : Sets (.output path) (.output path)
  | input (path : Text) : Sets (.input path) (.input path)

section

variable {segment : Segment} {setting : Setting} {argument text : Text} {valued : Valued}
  {flag other : Flag} {front : List Segment} {options : Options}

theorem value?_option (valued other : Valued) (text : Text) :
    Segment.value? valued (.option (other.beginning ++ text)) =
      if valued = other then some text else none := by
  rw [Segment.value?]
  by_cases heq : valued = other
  · rw [heq, after?_append, if_pos rfl]
  · rw [if_neg heq]
    have hapart : ¬ valued.beginning <+: other.beginning ∧
        ¬ other.beginning <+: valued.beginning := by
      revert heq
      cases valued <;> cases other <;> decide
    exact after?_eq_none hapart.1 hapart.2 text

theorem value?_flag (valued : Valued) (h : text ∈ flag.spellings) :
    Segment.value? valued (.option text) = none := by
  revert text
  cases valued <;> cases flag <;> decide

theorem spelling_ne_beginning (h : argument ∈ flag.spellings) (valued : Valued) (text : Text) :
    valued.beginning ++ text ≠ argument := by
  refine append_ne_of_not_prefix ?_ text
  revert argument
  cases valued <;> cases flag <;> decide

-- No two flags share a spelling.
theorem mem_spellings_iff (h : text ∈ flag.spellings) : text ∈ other.spellings ↔ other = flag := by
  revert text
  cases flag <;> cases other <;> decide

theorem has_apply_flag (options : Options) (flag other : Flag) :
    (options.apply flag.setting).has other = true ↔ other = flag ∨ options.has other = true := by
  cases flag <;> cases other <;> simp [apply, has, Flag.setting]

theorem last?_concat (front : List Segment) (segment : Segment) (valued : Valued) :
    last? (front ++ [segment]) valued = (segment.value? valued).or (last? front valued) := by
  rw [last?, List.filterMap_append, List.getLast?_append]
  cases h : segment.value? valued with
  | none => simp [h, last?]
  | some text => simp [h, last?]

theorem has_apply_valued (h : valued.Sets text setting) (options : Options) (flag : Flag) :
    (options.apply setting).has flag = options.has flag := by
  cases h <;> cases flag <;> rfl

theorem Segment.Sets.flags (hs : segment.Sets setting) (options : Options) (flag : Flag) :
    (options.apply setting).has flag = true ↔
      options.has flag = true ∨ ∃ spelling ∈ flag.spellings, Segment.option spelling = segment := by
  cases hs with
  | @flag other spelling h =>
      rw [has_apply_flag, or_comm]
      refine or_congr_right ⟨fun heq => ⟨spelling, (mem_spellings_iff h).mpr heq, rfl⟩, ?_⟩
      rintro ⟨spelling', h', heq⟩
      rw [Segment.option.inj heq] at h'
      exact (mem_spellings_iff h).mp h'
  | @attached valued text setting h =>
      rw [has_apply_valued h]
      refine (or_iff_left ?_).symm
      rintro ⟨spelling, h', heq⟩
      exact spelling_ne_beginning h' valued text (Segment.option.inj heq).symm
  | separate path => cases flag <;> simp [apply, has]
  | input path => cases flag <;> simp [apply, has]

theorem Segment.Sets.holds_flags (hs : segment.Sets setting) (h : Holds front none options)
    (flag : Flag) : (options.apply setting).has flag = true ↔
      ∃ spelling ∈ flag.spellings, Segment.option spelling ∈ front ++ [segment] := by
  rw [hs.flags, h.flags]
  simp only [List.mem_append, List.mem_singleton, and_or_left, exists_or]

theorem Holds.step_flag (h : Holds front none options) (hf : text ∈ flag.spellings) :
    Holds (front ++ [.option text]) none (options.apply flag.setting) := by
  have hlast (valued : Valued) : last? (front ++ [.option text]) valued = last? front valued := by
    rw [last?_concat, value?_flag valued hf, Option.none_or]
  have hinputs : (front ++ [Segment.option text]).filterMap Segment.input? =
      front.filterMap Segment.input? := by
    rw [List.filterMap_append]
    exact List.append_nil _
  refine ⟨(Segment.Sets.flag hf).holds_flags h, ?_, ?_, ?_, ?_, ?_⟩
  · rw [hlast]
    cases flag <;> exact h.output
  · rw [hinputs]
    cases flag <;> exact h.inputs
  · rw [hlast]
    cases flag <;> exact h.name
  · rw [hlast]
    cases flag <;> exact h.version
  · rw [hlast]
    cases flag <;> exact h.platform

theorem Holds.step_valued (h : Holds front none options) (hs : segment.Sets setting)
    (hvalued : valued.Sets text setting) (hinput : segment.input? = none)
    (hvalue : ∀ other, segment.value? other = if other = valued then some text else none) :
    Holds (front ++ [segment]) none (options.apply setting) := by
  have hlast (other : Valued) : last? (front ++ [segment]) other =
      if other = valued then some text else last? front other := by
    rw [last?_concat, hvalue]
    split <;> rfl
  have hinputs : (front ++ [segment]).filterMap Segment.input? =
      front.filterMap Segment.input? := by
    rw [List.filterMap_append, List.filterMap_cons_none hinput]
    exact List.append_nil _
  refine ⟨hs.holds_flags h, ?_, ?_, ?_, ?_, ?_⟩
  · rw [hlast]
    cases hvalued with
    | output => rfl
    | _ => exact h.output
  · rw [hinputs]
    cases hvalued <;> exact h.inputs
  · rw [hlast]
    cases hvalued with
    | name => rfl
    | _ => exact h.name
  · rw [hlast]
    cases hvalued with
    | version hversion => exact hversion.symm
    | _ => exact h.version
  · rw [hlast]
    cases hvalued with
    | platform => rfl
    | _ => exact h.platform

-- One more segment changes what it sets and nothing else.
theorem Holds.step (h : Holds front none options) (hs : segment.Sets setting) :
    Holds (front ++ [segment]) none (options.apply setting) := by
  cases hs with
  | flag hf => exact h.step_flag hf
  | attached hv => exact h.step_valued (.attached hv) hv rfl fun other => value?_option other _ _
  | separate path => exact h.step_valued (.separate path) (.output path) rfl fun other => rfl
  | input path =>
      have hlast (valued : Valued) :
          last? (front ++ [.input path]) valued = last? front valued := last?_concat _ _ _
      refine ⟨(Segment.Sets.input path).holds_flags h, ?_, ?_, ?_, ?_, ?_⟩
      · rw [hlast]
        exact h.output
      · simp [apply, h.inputs, Segment.input?]
      · rw [hlast]
        exact h.name
      · rw [hlast]
        exact h.version
      · rw [hlast]
        exact h.platform

end

-- The setting of a segment, or why it has none.
def Segment.setting : Segment → Except OptionError Setting
  | option argument => Setting.ofArgument argument
  | output path => .ok (.output path)
  | input path => .ok (.input path)

section

variable {segment : Segment} {setting : Setting} {argument path text : Text}

theorem looksLikeOption_append (h : LooksLikeOption argument) (rest : Text) :
    LooksLikeOption (argument ++ rest) := by
  obtain ⟨c, more, rfl⟩ := h
  exact ⟨c, more ++ rest, rfl⟩

theorem looksLikeOption_beginning (valued : Valued) : LooksLikeOption valued.beginning := by
  cases valued <;> exact ⟨_, _, rfl⟩

theorem looksLikeOption_spelling (flag : Flag) :
    ∀ spelling ∈ flag.spellings, LooksLikeOption spelling := by
  have hdash : ∀ spelling ∈ flag.spellings,
      spelling = '-' :: (spelling.drop 1).head! :: spelling.drop 2 := by
    cases flag <;> decide
  intro spelling h
  exact ⟨_, _, hdash spelling h⟩

theorem flag?_eq_some (h : Setting.flag? argument = some setting) :
    ∃ flag : Flag, argument ∈ flag.spellings ∧ setting = flag.setting := by
  unfold Setting.flag? at h
  split_ifs at h with hhelp hmetrics hjson hdump <;> obtain rfl := Option.some.inj h
  · exact ⟨.help, by simpa [Flag.spellings] using hhelp, rfl⟩
  · exact ⟨.metrics, by simpa [Flag.spellings] using hmetrics, rfl⟩
  · exact ⟨.metricsJson, by simpa [Flag.spellings] using hjson, rfl⟩
  · exact ⟨.dumpAst, by simpa [Flag.spellings] using hdump, rfl⟩

theorem valued?_eq_some (h : Setting.valued? argument = some (.ok setting)) :
    ∃ (valued : Valued) (text : Text),
      argument = valued.beginning ++ text ∧ valued.Sets text setting := by
  unfold Setting.valued? at h
  split at h
  · rename_i module hname
    obtain rfl : Setting.name module = setting := by simpa using h
    exact ⟨.name, module, (append_of_after? hname).symm, .name module⟩
  · split at h
    · rename_i text hversion
      split at h
      · rename_i components hcomponents
        obtain rfl : Setting.version components = setting := by simpa using h
        exact ⟨.version, text, (append_of_after? hversion).symm, .version hcomponents⟩
      · simp at h
    · obtain ⟨name, hplatform, heq⟩ := Option.map_eq_some_iff.mp h
      obtain rfl : Setting.platform name = setting := by simpa using heq
      exact ⟨.platform, name, (append_of_after? hplatform).symm, .platform name⟩

theorem sets_of_setting (hf : segment.Formed) (h : segment.setting = .ok setting) :
    segment.Sets setting := by
  cases segment with
  | output path => exact Except.ok.inj h ▸ .separate path
  | input path => exact Except.ok.inj h ▸ .input path
  | option argument =>
      obtain ⟨⟨c, rest, hdash⟩, -, -⟩ := hf
      rw [Segment.setting, Setting.ofArgument] at h
      split at h
      · rename_i path hpath
        obtain rfl := Except.ok.inj h
        rw [← append_of_after? hpath]
        exact .attached (.output path)
      · split at h
        · rename_i flagged hflag
          obtain rfl := Except.ok.inj h
          obtain ⟨flag, hspelling, rfl⟩ := flag?_eq_some hflag
          exact .flag hspelling
        · cases hvalued : Setting.valued? argument with
          | none =>
              rw [hvalued, hdash] at h
              cases h
          | some result =>
              rw [hvalued, Option.getD_some] at h
              obtain ⟨valued, text, rfl, hsets⟩ := valued?_eq_some (h ▸ hvalued)
              exact .attached hsets

theorem ofArgument_input (h : ¬ LooksLikeOption path) :
    Setting.ofArgument path = .ok (.input path) := by
  have hafter (valued : Valued) : Text.after? valued.beginning path = none := by
    cases hrest : Text.after? valued.beginning path with
    | none => rfl
    | some rest =>
        have hlooks := looksLikeOption_append (looksLikeOption_beginning valued) rest
        rw [append_of_after? hrest] at hlooks
        exact absurd hlooks h
  have hflag : Setting.flag? path = none := by
    cases hsetting : Setting.flag? path with
    | none => rfl
    | some setting =>
        obtain ⟨flag, hspelling, -⟩ := flag?_eq_some hsetting
        exact absurd (looksLikeOption_spelling flag path hspelling) h
  have hvalued : Setting.valued? path = none := by
    have hname : Text.after? "--name=" path = none := hafter .name
    have hversion : Text.after? "--python-version=" path = none := hafter .version
    have hplatform : Text.after? "--platform=" path = none := hafter .platform
    rw [Setting.valued?, hname, hversion, hplatform, Option.map_none]
  have houtput : Text.after? "-o" path = none := hafter .output
  have hinput : Setting.inputOf path = .ok (.input path) := by
    unfold Setting.inputOf
    split
    · exact absurd ⟨_, _, rfl⟩ h
    · rfl
  rw [Setting.ofArgument, houtput, hflag, hvalued, Option.getD_none, hinput]

-- Reading takes segments one by one.
theorem read_segment (hf : segment.Formed) (options : Options) (rest : List Text) :
    options.read (segment.arguments ++ rest) =
      match segment.setting with
      | .ok setting => (options.apply setting).read rest
      | .error e => (options, some e) := by
  cases segment with
  | option argument =>
      obtain ⟨-, hterminator, houtput⟩ := hf
      rw [Segment.arguments, List.singleton_append, read.eq_def]
      dsimp only
      rw [if_neg hterminator, if_neg houtput]
      rfl
  | output path =>
      rw [Segment.arguments, List.cons_append, read.eq_def]
      dsimp only
      rw [if_neg (by decide), if_pos rfl]
      rfl
  | input path =>
      have hne {argument : Text} (h : LooksLikeOption argument) : path ≠ argument := by
        rintro rfl
        exact hf h
      have hterminator : path ≠ "--" := hne ⟨'-', [], rfl⟩
      have houtput : path ≠ "-o" := hne ⟨'o', [], rfl⟩
      rw [Segment.arguments, List.singleton_append, read.eq_def]
      dsimp only
      rw [if_neg hterminator, if_neg houtput, ofArgument_input hf]
      rfl

end

section

variable {segments front : List Segment} {rest : List Text} {options result : Options}

-- A command line is accepted only when all its segments have settings.
theorem settings_of_read (hf : ∀ segment ∈ segments, segment.Formed)
    (h : options.read (segments.flatMap Segment.arguments ++ rest) = (result, none)) :
    ∀ segment ∈ segments, ∃ setting, segment.setting = .ok setting := by
  induction segments generalizing options with
  | nil => exact nofun
  | cons segment more ih =>
      obtain ⟨hsegment, hmore⟩ := List.forall_mem_cons.mp hf
      rw [List.flatMap_cons, List.append_assoc, read_segment hsegment] at h
      cases hsetting : segment.setting with
      | error e =>
          rw [hsetting] at h
          cases (Prod.mk.inj h).2
      | ok setting =>
          rw [hsetting] at h
          exact List.forall_mem_cons.mpr ⟨⟨setting, hsetting⟩, ih hmore h⟩

-- Then they are taken one after another.
theorem read_segments (hf : ∀ segment ∈ segments, segment.Formed)
    (hs : ∀ segment ∈ segments, ∃ setting, segment.setting = .ok setting)
    (h : Holds front none options) : ∃ after, Holds (front ++ segments) none after ∧
      ∀ rest, options.read (segments.flatMap Segment.arguments ++ rest) = after.read rest := by
  induction segments generalizing front options with
  | nil => exact ⟨options, by rwa [List.append_nil], fun rest => rfl⟩
  | cons segment more ih =>
      obtain ⟨hsegment, hmore⟩ := List.forall_mem_cons.mp hf
      obtain ⟨⟨setting, hsetting⟩, hsettings⟩ := List.forall_mem_cons.mp hs
      obtain ⟨after, hafter, hread⟩ :=
        ih hmore hsettings (h.step (sets_of_setting hsegment hsetting))
      refine ⟨after, ?_, fun rest => ?_⟩
      · rwa [List.append_assoc, List.singleton_append] at hafter
      · rw [List.flatMap_cons, List.append_assoc, read_segment hsegment, hsetting]
        exact hread rest

theorem foldl_inputs (options : Options) (inputs : List Text) :
    (inputs.map Setting.input).foldl apply options =
      { options with inputs := options.inputs ++ inputs } := by
  induction inputs generalizing options with
  | nil => simp
  | cons input more ih => simp [ih, apply]

theorem holds_nil : Holds [] none standard := by
  refine ⟨fun flag => ?_, rfl, rfl, rfl, rfl, rfl⟩
  cases flag <;> simp [has, standard]

-- What a command line of settings is read as.
theorem ofArguments_line (hf : ∀ segment ∈ segments, segment.Formed)
    (hs : ∀ segment ∈ segments, ∃ setting, segment.setting = .ok setting)
    (verbatim : Option (List Text)) : ∃ options, Holds segments verbatim options ∧
      ofArguments (line segments verbatim) = (options, options.conflict?) := by
  obtain ⟨after, hafter, hread⟩ := read_segments hf hs holds_nil
  rw [List.nil_append] at hafter
  unfold ofArguments line
  rw [hread]
  cases verbatim with
  | none => exact ⟨after, hafter, by rw [read.eq_def]⟩
  | some inputs =>
      refine ⟨{ after with inputs := after.inputs ++ inputs }, ?_, ?_⟩
      · obtain ⟨hflags, houtput, hinputs, hname, hversion, hplatform⟩ := hafter
        refine ⟨fun flag => ?_, houtput, ?_, hname, hversion, hplatform⟩
        · rw [← hflags]
          cases flag <;> rfl
        · simpa using hinputs
      · rw [read.eq_def]
        dsimp only
        rw [if_pos rfl, foldl_inputs]

theorem line_cons (segment : Segment) (segments : List Segment) (verbatim : Option (List Text)) :
    line (segment :: segments) verbatim = segment.arguments ++ line segments verbatim := by
  unfold line
  rw [List.flatMap_cons, List.append_assoc]

-- Every command line that is accepted falls into segments.
theorem exists_line {arguments : List Text} (h : options.read arguments = (result, none)) :
    ∃ segments verbatim, (∀ segment ∈ segments, Segment.Formed segment) ∧
      line segments verbatim = arguments := by
  -- The case of reading is that of the first segment; `-o` at the end and an argument without a
  -- setting are not accepted.
  fun_induction read options arguments with
  | case1 options => exact ⟨[], none, nofun, rfl⟩
  | case2 options rest => exact ⟨[], some rest, nofun, rfl⟩
  | case3 options => cases (Prod.mk.inj h).2
  | case4 options path rest hterminator ih =>
      obtain ⟨segments, verbatim, hf, rfl⟩ := ih h
      exact ⟨.output path :: segments, verbatim, List.forall_mem_cons.mpr ⟨trivial, hf⟩,
        line_cons _ _ _⟩
  | case5 options argument rest hterminator houtput setting hsetting ih =>
      obtain ⟨segments, verbatim, hf, rfl⟩ := ih h
      by_cases hlooks : LooksLikeOption argument
      · exact ⟨.option argument :: segments, verbatim,
          List.forall_mem_cons.mpr ⟨⟨hlooks, hterminator, houtput⟩, hf⟩, line_cons _ _ _⟩
      · exact ⟨.input argument :: segments, verbatim, List.forall_mem_cons.mpr ⟨hlooks, hf⟩,
          line_cons _ _ _⟩
  | case6 options argument rest hterminator houtput e he => cases (Prod.mk.inj h).2

end

-- A command line that is accepted falls into segments and the inputs behind `--`. The inputs and
-- the last values of the options are what it sets, and it sets the same in every order of the
-- segments that keeps the inputs and the values of each option in order.
theorem ofArguments_reorder {arguments : List Text} {options : Options}
    (h : ofArguments arguments = (options, none)) :
    (∃ segments verbatim, (∀ segment ∈ segments, Segment.Formed segment) ∧
      line segments verbatim = arguments) ∧
    ∀ segments verbatim, (∀ segment ∈ segments, Segment.Formed segment) →
      line segments verbatim = arguments →
      Holds segments verbatim options ∧
      ∀ reordered, Reorders segments reordered →
        ofArguments (line reordered verbatim) = (options, none) := by
  refine ⟨exists_line h, fun segments verbatim hf hline => ?_⟩
  subst hline
  have hs := settings_of_read hf h
  obtain ⟨options', hholds, hread⟩ := ofArguments_line hf hs verbatim
  rw [hread] at h
  obtain ⟨rfl, haccepted⟩ := Prod.mk.inj h
  refine ⟨hholds, fun reordered hr => ?_⟩
  have hf' : ∀ segment ∈ reordered, segment.Formed := fun segment hm =>
    hf segment (hr.perm.mem_iff.mpr hm)
  have hs' : ∀ segment ∈ reordered, ∃ setting, segment.setting = .ok setting := fun segment hm =>
    hs segment (hr.perm.mem_iff.mpr hm)
  obtain ⟨options'', hholds', hread'⟩ := ofArguments_line hf' hs' verbatim
  obtain rfl := hholds.unique (hr.holds hholds')
  rw [hread', haccepted]

-- `-o` takes `--` as its value, from wherever it stands.
theorem ofArguments_reorder_terminator :
    let segments : List Segment :=
      [.input "-", .option "-oold", .option "--metrics", .output "--"]
    let reordered : List Segment :=
      [.option "--metrics", .option "-oold", .output "--", .input "-"]
    let options : Options := { standard with metrics := true, output := "--", inputs := ["-"] }
    ofArguments ["-", "-oold", "--metrics", "-o", "--", "--"] = (options, none) ∧
      (∀ segment ∈ segments, segment.Formed) ∧ Reorders segments reordered ∧
      line segments (some []) = ["-", "-oold", "--metrics", "-o", "--", "--"] ∧
      ofArguments ["--metrics", "-oold", "-o", "--", "-", "--"] = (options, none) := by
  intro segments reordered options
  have haccepted : ofArguments ["-", "-oold", "--metrics", "-o", "--", "--"] = (options, none) := by
    decide
  have hf : ∀ segment ∈ segments, segment.Formed := by
    simp [segments, Segment.Formed, LooksLikeOption]
  have hr : Reorders segments reordered := by
    refine ⟨?_, rfl, fun valued => ?_⟩
    · decide
    · cases valued <;> rfl
  exact ⟨haccepted, hf, hr, rfl,
    ((ofArguments_reorder haccepted).2 segments (some []) hf rfl).2 reordered hr⟩

end TypeStub.Options
