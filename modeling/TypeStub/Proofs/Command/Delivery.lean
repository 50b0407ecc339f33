import TypeStub.Proofs.Command.Run
import TypeStub.Proofs.Ensures

-- A run delivers all that it was asked for, or nothing.
namespace TypeStub.Command

-- A text whose last line is ended.
def endLine (text : Text) : Text :=
  if text = [] ∨ text.getLast? = some '\n' then text else text ++ "\n"

theorem printed_eq (m : StubModule) : printed m = endLine (Print.module m) := by
  have hlast : ∀ text : Text, (text.getLast?.all (· == '\n')) = true ↔
      text = [] ∨ text.getLast? = some '\n' := by
    intro text
    cases h : text.getLast? with
    | none => simpa using List.getLast?_eq_none_iff.mp h
    | some c =>
        have hne : text ≠ [] := by
          rintro rfl
          simp at h
        simp [hne]
  unfold printed endLine
  simp only [hlast]

-- The target of an output path as it was: the place that it names keeps its entry, and a path that
-- names nothing still names nothing.
structure SameTarget (path : Text) (before after : Files) : Prop where
  entry : ∀ place, before.locate? path = some place → after.entry? place = before.entry? place
  missing : before.locate? path = none → after.locate? path = none

theorem SameTarget.refl (path : Text) (files : Files) : SameTarget path files files :=
  ⟨fun _ _ => rfl, id⟩

theorem sameTarget_of_error {files after : Files} {path content : Text} {e : WriteError}
    (hp : path ≠ []) (h : Replaces files path content (.error e) after) :
    SameTarget path files after where
  entry place ht := h.entry?_of_error fun hs => locate?_stagingPath_ne hp hs ht rfl
  missing hm := by
    cases hl : after.locate? path with
    | none => rfl
    | some place =>
        have hbefore := Files.locate?_of_directories (fun _ => h.isDirectory_of_error) hl
        rw [hm] at hbefore
        exact nomatch hbefore

-- What a run delivers behind the outlines of its inputs: a text on standard output, or as the new
-- content of its target.
def Delivers (options : Options) (before after : World) (outlines text : Text) : Prop :=
  if options.output = [] then
    after.files = before.files ∧ after.output = before.output ++ outlines ++ text
  else
    after.files.read options.output = .ok text ∧ after.output = before.output ++ outlines

section

variable {digest : Hasher} {options : Options} {world after : World}

theorem taken_isPrefix (digest : Hasher) (options : Options) (files : Files) (turns : List Turn) :
    taken digest options files turns <+: turns := by
  induction turns with
  | nil => exact List.prefix_rfl
  | cons turn rest ih =>
      rw [taken]
      split
      · exact (List.prefix_cons_inj turn).mpr ih
      · exact (List.prefix_cons_inj turn).mpr (List.nil_prefix)

-- When no input fails, all turns are taken.
theorem taken_eq {files : Files} {turns : List Turn} {found : List Text}
    (h : List.Forall₂ (fun turn text => turn.text digest options files = .ok text) turns found) :
    taken digest options files turns = turns := by
  induction h with
  | nil => rfl
  | cons hfirst _ ih => rw [taken, hfirst, ih]

theorem texts_eq_ok_iff {found : List Text} : texts digest options world = .ok found ↔
    List.Forall₂ (fun turn text => turn.text digest options world.files = .ok text)
      (turns world.input options.inputs) found := mapM_except_ok_iff

theorem Turn.text_eq_ok_iff {files : Files} {turn : Turn} {text : Text} :
    turn.text digest options files = .ok text ↔ ∃ source m, turn.source files = .ok source ∧
      load digest (request options turn.input) source = .ok m ∧ text = endLine (Print.module m) := by
  unfold Turn.text
  cases turn.source files with
  | error e => simp
  | ok source =>
      cases hl : load digest (request options turn.input) source with
      | error d => simp [hl]
      | ok m => simp [hl, printed_eq, eq_comm]

-- What the world is like after a run that took all its inputs.
theorem inputsTaken_output {found : List Text} (h : texts digest options world = .ok found) :
    (inputsTaken digest options world).output = world.output ++
      (turns world.input options.inputs).flatMap (Turn.dump options world.files) := by
  rw [inputsTaken, took, taken_eq (texts_eq_ok_iff.mp h)]

-- A run that succeeds delivers the texts of its inputs, one behind the other.
theorem Finishes.delivers (h : Finishes digest options world after 0) :
    ∃ found, texts digest options world = .ok found ∧
      Delivers options world after
        ((turns world.input options.inputs).flatMap (Turn.dump options world.files))
        found.flatten := by
  cases h with
  | @printed found ht hp hf hi ho =>
      refine ⟨found, ht, ?_⟩
      rw [Delivers, if_pos hp, ho, inputsTaken_output ht]
      exact ⟨hf, rfl⟩
  | @replaced found ht hp hf ho =>
      refine ⟨found, ht, ?_⟩
      have hreplaces := replaces_replaced world.room world.files found.flatten hp
      rw [hf] at hreplaces
      rw [Delivers, if_neg hp, ho, inputsTaken_output ht]
      exact ⟨hreplaces.read_of_ok hp, rfl⟩

-- A run that fails leaves its target and shows outlines only.
theorem Finishes.leaves {status : Nat} (h : Finishes digest options world after status)
    (hs : status ≠ 0) : SameTarget options.output world.files after.files ∧
      ∃ taken, taken <+: turns world.input options.inputs ∧
        after.output = world.output ++ taken.flatMap (Turn.dump options world.files) := by
  have htaken := taken_isPrefix digest options world.files (turns world.input options.inputs)
  cases h with
  | stopped ht hf hi ho =>
      rw [hf]
      exact ⟨.refl _ _, _, htaken, ho⟩
  | printed => exact absurd rfl hs
  | replaced => exact absurd rfl hs
  | @refused found e ht hp hf ho =>
      have hreplaces := replaces_replaced world.room world.files found.flatten hp
      rw [hf] at hreplaces
      exact ⟨sameTarget_of_error hp hreplaces, _, htaken, ho⟩

end

-- The options of a run over one input alone.
def alone (options : Options) (input : Text) : Options := { options with inputs := [input] }

-- Runs over each of the inputs alone, one after another.
def runEach (digest : Hasher) (options : Options) : List Text → StateM World (List Nat)
  | [] => return []
  | input :: rest => do
      let status ← run digest (alone options input)
      return status :: (← runEach digest options rest)

-- The text that an input brings to a run: that of its module, its last line ended. A run over the
-- input alone finds the same standard input, and it delivers the same text.
structure Turn.Brings (digest : Hasher) (options : Options) (files : Files) (room : Option Nat)
    (turn : Turn) (text : Text) : Prop where
  loads : ∃ source m, turn.source files = .ok source ∧
    load digest (request options turn.input) source = .ok m ∧ text = endLine (Print.module m)
  delivers : ∀ before : World, before.files = files → before.input = turn.stdin →
    before.room = room →
    let (status, after) := run (m := StateM World) digest (alone options turn.input) before
    status = 0 ∧ Delivers options before after (turn.dump options files) text

section

variable {digest : Hasher} {options : Options} {before after : World}

-- The output path allows for a delivery of a text, or of a shorter one.
def Reachable (options : Options) (files : Files) (room : Option Nat) (text : Text) : Prop :=
  options.output = [] ∨ World.fitting room text = text ∧ ∃ staging target,
    files.Writable (stagingPath options.output) staging ∧ files.Replaceable options.output target

theorem Reachable.shorter {files : Files} {room : Option Nat} {text other : Text}
    (h : Reachable options files room other) (hle : text.length ≤ other.length) :
    Reachable options files room text :=
  h.imp id fun ⟨hroom, hpath⟩ => ⟨fitting_of_le hroom hle, hpath⟩

theorem Finishes.reachable {found : List Text} (h : Finishes digest options before after 0)
    (ht : texts digest options before = .ok found) :
    Reachable options before.files before.room found.flatten := by
  cases h with
  | printed _ hp hf hi ho => exact .inl hp
  | @replaced found' hfound hp hf ho =>
      obtain rfl := Except.ok.inj (ht.symm.trans hfound)
      have hreplaces := replaces_replaced before.room before.files found.flatten hp
      rw [hf] at hreplaces
      exact .inr ⟨fitting_of_replaced (congrArg Prod.fst hf), hreplaces.reachable_of_ok⟩

-- With texts that can be delivered a run succeeds.
theorem Finishes.status_eq {status : Nat} {found : List Text}
    (h : Finishes digest options before after status) (ht : texts digest options before = .ok found)
    (hr : Reachable options before.files before.room found.flatten) : status = 0 := by
  cases h with
  | stopped hfailed => exact nomatch ht.symm.trans hfailed
  | printed => rfl
  | replaced => rfl
  | @refused found' e hfound hp hf ho =>
      obtain rfl := Except.ok.inj (ht.symm.trans hfound)
      rcases hr with he | ⟨hroom, staging, target, hs, htarget⟩
      · exact absurd he hp
      · have hok := replaced_of_replaceable hroom hp hs htarget
        rw [hf] at hok
        exact nomatch hok

theorem Finishes.input_eq (h : Finishes digest options before after 0) (hp : options.output = []) :
    after.input = (inputsTaken digest options before).input := by
  cases h with
  | printed ht hp' hf hi ho => exact hi
  | replaced ht hp' hf ho => exact absurd hp hp'

theorem run_alone {turn : Turn} {text : Text} (ht : turn.text digest options before.files = .ok text)
    (hr : Reachable options before.files before.room text) (hi : before.input = turn.stdin) :
    let (status, after) := run (m := StateM World) digest (alone options turn.input) before
    status = 0 ∧ Delivers options before after (turn.dump options before.files) text ∧
      (options.output = [] → after.input = turn.rest) := by
  have hturns : turns before.input (alone options turn.input).inputs = [turn] := by
    rw [hi]
    rfl
  have htexts : texts digest (alone options turn.input) before = .ok [text] := by
    rw [texts_eq_ok_iff, hturns]
    exact .cons ht .nil
  have htaken := taken_eq (texts_eq_ok_iff.mp htexts)
  have hinputs : (alone options turn.input).inputs ≠ [] := List.cons_ne_nil _ _
  have hfinishes := finishes_run digest hinputs before
  generalize run (m := StateM World) digest (alone options turn.input) before = finished
    at hfinishes ⊢
  obtain ⟨status, after⟩ := finished
  obtain rfl := hfinishes.status_eq htexts (by rwa [List.flatten_singleton])
  obtain ⟨found, hfound, hdelivers⟩ := hfinishes.delivers
  obtain rfl := Except.ok.inj (htexts.symm.trans hfound)
  rw [hturns, List.flatMap_singleton, List.flatten_singleton] at hdelivers
  refine ⟨rfl, hdelivers, fun hp => ?_⟩
  have hinput := hfinishes.input_eq hp
  rw [inputsTaken, htaken, hturns] at hinput
  exact hinput

theorem runEach_cons {middle : World} {input : Text} {rest : List Text} {status : Nat}
    {statuses : List Nat}
    (hfirst : run (m := StateM World) digest (alone options input) before = (status, middle))
    (hrest : runEach digest options rest middle = (statuses, after)) :
    runEach digest options (input :: rest) before = (status :: statuses, after) :=
  (run_bind hfirst).trans (run_bind hrest)

theorem Turn.dump_eq_nil (hd : options.dumpAst = false) (files : Files) (turn : Turn) :
    turn.dump options files = [] := by simp [Turn.dump, hd]

-- Runs over the inputs one after another print their texts one behind the other.
theorem runEach_prints (hp : options.output = []) (hd : options.dumpAst = false)
    {inputs : List Text} {found : List Text}
    (h : List.Forall₂ (fun turn text => turn.text digest options before.files = .ok text)
      (turns before.input inputs) found) :
    let (statuses, after) := runEach digest options inputs before
    (∀ status ∈ statuses, status = 0) ∧ after.files = before.files ∧
      after.output = before.output ++ found.flatten := by
  induction inputs generalizing before found with
  | nil =>
      cases h
      exact ⟨nofun, rfl, (List.append_nil _).symm⟩
  | cons input rest ih =>
      obtain ⟨text, more, hfirst, hrest, rfl⟩ := List.forall₂_cons_left_iff.mp h
      have hone := run_alone hfirst (.inl hp) rfl
      cases hrun : run (m := StateM World) digest (alone options input) before with
      | mk status middle =>
          rw [hrun] at hone
          obtain ⟨rfl, hdelivers, hinput⟩ := hone
          rw [Delivers, if_pos hp, Turn.dump_eq_nil hd, List.append_nil] at hdelivers
          obtain ⟨hfiles, houtput⟩ := hdelivers
          have hmore : List.Forall₂
              (fun turn text => turn.text digest options middle.files = .ok text)
              (turns middle.input rest) more := by
            rw [hfiles, hinput hp]
            exact hrest
          have hlater := ih hmore
          cases heach : runEach digest options rest middle with
          | mk statuses after =>
              rw [heach] at hlater
              obtain ⟨hstatuses, hkept, hprinted⟩ := hlater
              rw [runEach_cons hrun heach]
              refine ⟨List.forall_mem_cons.mpr ⟨rfl, hstatuses⟩, hkept.trans hfiles, ?_⟩
              rw [hprinted, houtput, List.flatten_cons, List.append_assoc]

-- Without outlines a delivery to standard output is its text alone.
theorem delivers_plain (hp : options.output = []) (hd : options.dumpAst = false) {files : Files}
    {turns : List Turn} {text : Text} :
    Delivers options before after (turns.flatMap (Turn.dump options files)) text ↔
      after.files = before.files ∧ after.output = before.output ++ text := by
  rw [Delivers, if_pos hp, List.flatMap_eq_nil_iff.mpr fun turn _ => turn.dump_eq_nil hd files,
    List.append_nil]

-- All or nothing: a run that fails leaves its target and prints no text of a module, and a run that
-- succeeds delivers the texts of all its inputs, as runs over each of them would.
theorem run_all_or_nothing (digest : Hasher) (options : Options) (world : World)
    (hi : options.inputs ≠ []) :
    let (status, after) := run (m := StateM World) digest options world
    let inputs := turns world.input options.inputs
    (status ≠ 0 → SameTarget options.output world.files after.files ∧
      ∃ taken, taken <+: inputs ∧
        after.output = world.output ++ taken.flatMap (Turn.dump options world.files)) ∧
    (status = 0 → ∃ found,
      List.Forall₂ (Turn.Brings digest options world.files world.room) inputs found ∧
      Delivers options world after (inputs.flatMap (Turn.dump options world.files)) found.flatten ∧
      (options.output = [] → options.dumpAst = false →
        let (statuses, last) := runEach digest options options.inputs world
        (∀ status ∈ statuses, status = 0) ∧ last.files = after.files ∧
          last.output = after.output)) := by
  have hfinishes := finishes_run digest hi world
  generalize run (m := StateM World) digest options world = finished at hfinishes ⊢
  obtain ⟨status, after⟩ := finished
  dsimp only at hfinishes ⊢
  refine ⟨hfinishes.leaves, fun hs => ?_⟩
  subst hs
  obtain ⟨found, htexts, hdelivers⟩ := hfinishes.delivers
  have hfound := texts_eq_ok_iff.mp htexts
  have hshort : ∀ text ∈ found, text.length ≤ found.flatten.length := fun text hm => by
    obtain ⟨front, back, rfl⟩ := List.append_of_mem hm
    simp only [List.flatten_append, List.flatten_cons, List.length_append]
    omega
  refine ⟨found, ?_, hdelivers, fun hp hd => ?_⟩
  · have hmem : List.Forall₂ (fun turn text => text ∈ found ∧ turn.text digest options world.files =
        .ok text) (turns world.input options.inputs) found :=
      ((List.forall₂_and_left _ _).mpr ⟨fun _ hm => hm, hfound.flip⟩).flip
    refine hmem.imp fun turn text ⟨hm, ht⟩ => ?_
    refine ⟨Turn.text_eq_ok_iff.mp ht, fun before hf hstdin hroom => ?_⟩
    have htext : turn.text digest options before.files = .ok text := hf ▸ ht
    have hreachable := (hfinishes.reachable htexts).shorter (hshort text hm)
    have halone := run_alone htext (hf ▸ hroom ▸ hreachable) hstdin
    generalize run (m := StateM World) digest (alone options turn.input) before = finished at halone ⊢
    obtain ⟨status, last⟩ := finished
    exact ⟨halone.1, hf ▸ halone.2.1⟩
  · have heach := runEach_prints hp hd hfound
    generalize runEach digest options options.inputs world = finished at heach ⊢
    obtain ⟨statuses, last⟩ := finished
    obtain ⟨hstatuses, hfiles, houtput⟩ := heach
    obtain ⟨hplain, hprinted⟩ := (delivers_plain hp hd).mp hdelivers
    exact ⟨hstatuses, hfiles.trans hplain.symm, houtput.trans hprinted.symm⟩

-- A file and the standard input behind it.
theorem run_all_or_nothing_two :
    let digest := Digest.md5
    let options : Options := { Options.standard with inputs := ["a", "-"] }
    let world : World :=
      ⟨[(Location.workingDirectory.child "a", .file "x: int\n")], "y: str", [], [], none⟩
    let text : Text := "x = ...  # type: int\ny = ...  # type: str\n"
    options.inputs ≠ [] ∧ (run (m := StateM World) digest options world).1 = 0 ∧
      (∃ found, List.Forall₂ (Turn.Brings digest options world.files world.room)
        (turns world.input options.inputs) found ∧ found.flatten = text) ∧
      (runEach digest options options.inputs world).2.output = text := by
  intro digest options world text
  have hi : options.inputs ≠ [] := List.cons_ne_nil _ _
  have hall := run_all_or_nothing digest options world hi
  have hstatus : (run (m := StateM World) digest options world).1 = 0 := by decide +kernel
  have houtput : (run (m := StateM World) digest options world).2.output = text := by decide +kernel
  refine ⟨hi, hstatus, ?_⟩
  have hp : options.output = [] := rfl
  have hd : options.dumpAst = false := rfl
  generalize run (m := StateM World) digest options world = finished at hall hstatus houtput
  obtain ⟨status, after⟩ := finished
  obtain ⟨found, hfound, hdelivers, heach⟩ := hall.2 hstatus
  have hprinted := ((delivers_plain hp hd).mp hdelivers).2
  generalize runEach digest options options.inputs world = finished at heach ⊢
  obtain ⟨statuses, last⟩ := finished
  obtain ⟨-, -, hlast⟩ := heach hp hd
  have hflatten : found.flatten = text := by
    rw [← houtput, hprinted, List.nil_append]
  exact ⟨⟨found, hfound, hflatten⟩, hlast.trans houtput⟩

end

end TypeStub.Command
