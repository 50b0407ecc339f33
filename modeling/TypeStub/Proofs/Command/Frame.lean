import TypeStub.Proofs.Command.Run

-- A run changes its target and the staging file beside it, and no other file.
namespace TypeStub.Command

section

variable {digest : Hasher} {options : Options} {world after : World}

theorem run_noInputs (hi : options.inputs = []) (world : World) :
    (run (m := StateM World) digest options world).2.files = world.files := by
  unfold run
  rw [if_pos hi]
  rfl

-- A run changes files only to deliver the texts of all its inputs to its target.
theorem Finishes.files_cases {status : Nat} (h : Finishes digest options world after status) :
    after.files = world.files ∨ options.output ≠ [] ∧ ∃ found outcome,
      texts digest options world = .ok found ∧
        Replaces world.files options.output found.flatten outcome after.files := by
  cases h with
  | stopped ht hf hi ho => exact .inl hf
  | printed ht hp hf hi ho => exact .inl hf
  | @replaced found ht hp hf ho | @refused found e ht hp hf ho =>
      have hreplaces := replaces_replaced world.room world.files found.flatten hp
      rw [hf] at hreplaces
      exact .inr ⟨hp, found, _, ht, hreplaces⟩

-- A command line that is refused, or asks for help, or names no input changes no file.
theorem runArguments_files (digest : Hasher) (arguments : List Text) (world : World) :
    let after := (runArguments (m := StateM World) digest arguments world).2
    after.files = world.files ∨
      ∃ status, Finishes digest (Options.ofArguments arguments).1 world after status := by
  unfold runArguments
  cases Options.ofArguments arguments with
  | mk options error =>
      cases error with
      | some e => exact .inl rfl
      | none =>
          dsimp only
          cases options.help with
          | true => exact .inl rfl
          | false =>
              by_cases hi : options.inputs = []
              · exact .inl (run_noInputs hi world)
              · exact .inr ⟨_, finishes_run digest hi world⟩

-- Every place keeps its entry but the target and, where all inputs were accepted, the staging file
-- beside it: what stood there may be gone, but nothing new is left.
theorem runArguments_frame (digest : Hasher) (arguments : List Text) (world : World)
    (htree : world.files.IsTree) :
    let options := (Options.ofArguments arguments).1
    let after := (runArguments (m := StateM World) digest arguments world).2
    ∀ place, world.files.locate? options.output ≠ some place →
      after.files.entry? place = world.files.entry? place ∨
        (options.output ≠ [] ∧ world.files.locate? (stagingPath options.output) = some place ∧
          after.files.entry? place = none ∧ ∃ found, texts digest options world = .ok found) := by
  intro options after place ht
  rcases runArguments_files digest arguments world with hsame | ⟨status, hfinishes⟩
  · exact .inl (congrArg (fun files => Files.entry? files place) hsame)
  rcases hfinishes.files_cases with hsame | ⟨hp, found, outcome, hfound, hreplaces⟩
  · exact .inl (congrArg (fun files => Files.entry? files place) hsame)
  by_cases hs : world.files.locate? (stagingPath options.output) = some place
  · rcases hreplaces.entry?_staging hp htree hs with hkept | hgone
    · exact .inl hkept
    · exact .inr ⟨hp, hs, hgone, found, hfound⟩
  · exact .inl (hreplaces.entry?_elsewhere hs ht)

end

-- A target with an input beside it.
theorem runArguments_frame_input :
    let digest := Digest.md5
    let arguments : List Text := ["-o", "out", "in"]
    let place : Text → Location := Location.workingDirectory.child
    let world : World := ⟨[(place "in", .file "x: int\n")], [], [], [], none⟩
    let after := (runArguments (m := StateM World) digest arguments world).2
    world.files.IsTree ∧ world.files.locate? "out" = some (place "out") ∧
      after.files.entry? (place "out") = some (.file "x = ...  # type: int\n") ∧
      after.files.entry? (place "in") = some (.file "x: int\n") := by
  intro digest arguments place world after
  have htree : world.files.IsTree := by decide +kernel
  have hout : after.files.entry? (place "out") = some (.file "x = ...  # type: int\n") := by
    decide +kernel
  have hframe := runArguments_frame digest arguments world htree (place "in") (by decide +kernel)
  refine ⟨htree, by decide +kernel, hout, ?_⟩
  rcases hframe with hkept | ⟨-, hstaging, -, -⟩
  · exact hkept
  · exact absurd hstaging (by decide +kernel)

-- A file in the place of the staging file is lost, though it is not the target.
theorem runArguments_loses :
    let digest := Digest.md5
    let arguments : List Text := ["-o", "out", "in"]
    let place : Text → Location := Location.workingDirectory.child
    let world : World := ⟨[(place "in", .file []), (place "out.tmp", .file "keep")], [], [], [], none⟩
    let after := (runArguments (m := StateM World) digest arguments world).2
    world.files.IsTree ∧
      world.files.locate? (Options.ofArguments arguments).1.output ≠ some (place "out.tmp") ∧
      world.files.entry? (place "out.tmp") = some (.file "keep") ∧
      after.files.entry? (place "out.tmp") = none := by
  decide +kernel

end TypeStub.Command
