import TypeStub.Command
import TypeStub.Proofs.Files.Frame

-- What replacing a file at once does to the files around it.
namespace TypeStub.Command

open TypeStub.Files

-- The outcome of replacing a file where so many bytes find room, and the files after it.
def replaced (room : Option Nat) (files : Files) (path content : Text) :
    Except WriteError Unit × Files :=
  match files.write? (stagingPath path) (World.fitting room content) with
  | none => (.error .cannotWrite, files.remove (stagingPath path))
  | some staged =>
      if World.fitting room content = content then
        match staged.rename (stagingPath path) path with
        | .ok after => (.ok (), after)
        | .error e => (.error (.cannotReplace e.message), staged.remove (stagingPath path))
      else (.error .cannotWrite, staged.remove (stagingPath path))

theorem run_bind {α β : Type} {p : StateM World α} {f : α → StateM World β} {world after : World}
    {a : α} (h : p world = (a, after)) : (p >>= f) world = f a after := by
  change (match p world with | (a, after) => f a after) = f a after
  rw [h]

theorem replaceFile_run (path content : Text) (world : World) :
    replaceFile (m := StateM World) path content world =
      ((replaced world.room world.files path content).1,
        { world with files := (replaced world.room world.files path content).2 }) := by
  unfold replaced
  cases hw : world.files.write? (stagingPath path) (World.fitting world.room content) with
  | none =>
      have hwrite : World.writeFile (stagingPath path) content world = (false, world) := by
        simp only [World.writeFile, hw]
      exact run_bind hwrite
  | some staged =>
      have hwrite : World.writeFile (stagingPath path) content world =
          (World.fitting world.room content == content, { world with files := staged }) := by
        simp only [World.writeFile, hw]
      refine (run_bind hwrite).trans ?_
      by_cases hroom : World.fitting world.room content = content
      · simp only [beq_iff_eq, if_pos hroom]
        cases hr : staged.rename (stagingPath path) path with
        | ok after =>
            have hrename : World.rename (stagingPath path) path { world with files := staged } =
                (none, { world with files := after }) := by
              rw [World.rename, hr]
            exact run_bind hrename
        | error e =>
            have hrename : World.rename (stagingPath path) path { world with files := staged } =
                (some e.message, { world with files := staged }) := by
              rw [World.rename, hr]
            exact run_bind hrename
      · simp only [beq_iff_eq, if_neg hroom]
        rfl

section

variable {room : Option Nat} {files : Files} {path content : Text}
  {target staging place : Location}

theorem start_stagingPath (hp : path ≠ []) :
    Files.start (stagingPath path) = Files.start path := by
  unfold Files.start stagingPath
  rw [List.head?_append, List.head?_eq_some_head hp]
  rfl

theorem splitOn_stagingPath (path : Text) : ∃ pieces last,
    path.splitOn '/' = pieces ++ [last] ∧
      (stagingPath path).splitOn '/' = pieces ++ [stagingPath last] :=
  splitOn_append (by decide) path

-- The staging file has a name of its own in the directory of the target.
theorem locate?_stagingPath_ne (hp : path ≠ [])
    (hs : files.locate? (stagingPath path) = some staging)
    (ht : files.locate? path = some target) : target ≠ staging := by
  obtain ⟨pieces, last, hpath, hstaging⟩ := splitOn_stagingPath path
  obtain ⟨place, hplace, rfl⟩ := step_of_locate? hpath ht
  obtain ⟨place', hplace', rfl⟩ := step_of_locate? hstaging hs
  rw [start_stagingPath hp, hplace] at hplace'
  obtain rfl := Option.some.inj hplace'
  have hlong : 2 < (stagingPath last).length := by
    simp [stagingPath]
  rw [place.step_eq_child hlong]
  exact place.step_ne_child (by decide) last

-- Replacing a file is refused, or fails after some or all of the staging file was written, or is
-- done.
inductive Replaces (files : Files) (path content : Text) : Except WriteError Unit → Files → Prop
  | refused : Replaces files path content (.error .cannotWrite) (files.remove (stagingPath path))
  | failed {staging : Location} (e : WriteError) (written : Text)
      (hs : files.Writable (stagingPath path) staging) :
      Replaces files path content (.error e)
        ((files.set staging (.file written)).remove (stagingPath path))
  | done {staging target : Location} (hs : files.Writable (stagingPath path) staging)
      (ht : files.Replaceable path target) :
      Replaces files path content (.ok ())
        (((files.set staging (.file content)).erase staging).set target (.file content))

-- The staging file is found again where it was written.
theorem locate?_set (hs : files.Writable (stagingPath path) staging) (other : Text) :
    (files.set staging (.file content)).locate? other = files.locate? other :=
  locate?_eq (fun _ => isDirectory_set hs.notDirectory) other

theorem replaceable_set (content : Text) (hp : path ≠ [])
    (hs : files.Writable (stagingPath path) staging) :
    (files.set staging (.file content)).Replaceable path target ↔
      files.Replaceable path target := by
  have hplace : files.locate? path = some target →
      Files.entry? (files.set staging (.file content)) target = files.entry? target := fun ht =>
    entry?_set_ne (locate?_stagingPath_ne hp hs.locate ht)
  refine ⟨fun h => ?_, fun h => ?_⟩
  · have ht := (locate?_set hs path).symm.trans h.locate
    exact ⟨h.endsInName, h.noSeparator, ht, hplace ht ▸ h.notDirectory⟩
  · refine ⟨h.endsInName, h.noSeparator, (locate?_set hs path).trans h.locate, ?_⟩
    rw [hplace h.locate]
    exact h.notDirectory

theorem replaces_replaced (room : Option Nat) (files : Files) (content : Text) (hp : path ≠ []) :
    Replaces files path content (replaced room files path content).1
      (replaced room files path content).2 := by
  unfold replaced
  cases hw : files.write? (stagingPath path) (World.fitting room content) with
  | none => exact .refused
  | some staged =>
      obtain ⟨staging, hs, rfl⟩ := writable_of_write? hw
      dsimp only
      split
      · rename_i hroom
        rw [hroom]
        cases hr : (files.set staging (.file content)).rename (stagingPath path) path with
        | error e => exact .failed _ _ hs
        | ok after =>
            obtain ⟨target, ht⟩ := replaceable_of_rename hr
            have hentry := entry?_set_self files (.file content) (names_ne_nil hs.notDirectory)
            have hrename := rename_of_replaceable ht ((locate?_set hs _).trans hs.locate) hentry
            obtain rfl := Except.ok.inj (hr.symm.trans hrename)
            exact .done hs ((replaceable_set content hp hs).mp ht)
      · exact .failed _ _ hs

theorem fitting_of_replaced (h : (replaced room files path content).1 = .ok ()) :
    World.fitting room content = content := by
  unfold replaced at h
  split at h
  · cases h
  · split at h
    · assumption
    · cases h

-- Less finds room where more does.
theorem fitting_of_le {text : Text} (hroom : World.fitting room content = content)
    (hle : text.length ≤ content.length) : World.fitting room text = text := by
  have hlength := congrArg List.length hroom
  rw [World.fitting, List.length_take] at hlength
  refine List.take_of_length_le ?_
  cases room with
  | none => exact Nat.le_refl _
  | some n =>
      rw [Option.getD_some] at hlength ⊢
      omega

-- Whether a file can be replaced does not depend on its new content, if that finds room.
theorem replaced_of_replaceable (hroom : World.fitting room content = content) (hp : path ≠ [])
    (hs : files.Writable (stagingPath path) staging) (ht : files.Replaceable path target) :
    (replaced room files path content).1 = .ok () := by
  have hentry := entry?_set_self files (.file content) (names_ne_nil hs.notDirectory)
  have hrename := rename_of_replaceable ((replaceable_set content hp hs).mpr ht)
    ((locate?_set hs _).trans hs.locate) hentry
  simp only [replaced, hroom, write?_of_writable hs, hrename, if_true]

namespace Replaces

variable {after : Files} {outcome : Except WriteError Unit} {e : WriteError}

-- A replacement that fails changes at most what the staging path names.
theorem entry?_of_error (h : Replaces files path content (.error e) after)
    (hs : files.locate? (stagingPath path) ≠ some place) :
    after.entry? place = files.entry? place := by
  cases h with
  | refused =>
      rcases entry?_remove files (stagingPath path) place with hsame | ⟨hl, -⟩
      · exact hsame
      · exact absurd hl hs
  | failed e written hw =>
      rename_i staging
      have hne : place ≠ staging := fun hp => hs (hp ▸ hw.locate)
      rcases entry?_remove (files.set staging (.file written)) (stagingPath path) place with
        hsame | ⟨hl, -⟩
      · rw [hsame, entry?_set_ne hne]
      · exact absurd ((locate?_set hw _).symm.trans hl) hs

-- At most the staging file and the target change.
theorem entry?_elsewhere (h : Replaces files path content outcome after)
    (hs : files.locate? (stagingPath path) ≠ some place)
    (ht : files.locate? path ≠ some place) : after.entry? place = files.entry? place := by
  cases outcome with
  | error e => exact h.entry?_of_error hs
  | ok _ =>
      cases h with
      | done hw hr =>
          rename_i staging target
          have hne : place ≠ staging := fun hp => hs (hp ▸ hw.locate)
          have hother : place ≠ target := fun hp => ht (hp ▸ hr.locate)
          rw [entry?_set_ne hother, entry?_erase_ne hne, entry?_set_ne hne]

-- In a tree no staging file is left behind.
theorem entry?_staging (hp : path ≠ []) (htree : files.IsTree)
    (h : Replaces files path content outcome after)
    (hs : files.locate? (stagingPath path) = some staging) :
    after.entry? staging = files.entry? staging ∨ after.entry? staging = none := by
  cases h with
  | refused => exact (entry?_remove files _ staging).imp_right And.right
  | failed e written hw =>
      obtain rfl := Option.some.inj (hs.symm.trans hw.locate)
      right
      rw [remove, (locate?_set hw _).trans hs]
      dsimp only
      rw [htree.hasEntriesIn_set hw.notDirectory]
      exact entry?_erase_self _ (names_ne_nil hw.notDirectory)
  | done hw hr =>
      obtain rfl := Option.some.inj (hs.symm.trans hw.locate)
      right
      rw [entry?_set_ne (locate?_stagingPath_ne hp hs hr.locate).symm]
      exact entry?_erase_self _ (names_ne_nil hw.notDirectory)

-- The directories after a failure were directories before.
theorem isDirectory_of_error (h : Replaces files path content (.error e) after)
    (hd : after.entry? place = some .directory) : files.entry? place = some .directory := by
  cases h with
  | refused =>
      rcases entry?_remove files (stagingPath path) place with hsame | ⟨-, hn⟩
      · exact hsame ▸ hd
      · rw [hn] at hd
        exact nomatch hd
  | failed e written hw =>
      rename_i staging
      rcases entry?_remove (files.set staging (.file written)) (stagingPath path) place with
        hsame | ⟨-, hn⟩
      · exact (isDirectory_set hw.notDirectory).mp (hsame ▸ hd)
      · rw [hn] at hd
        exact nomatch hd

theorem reachable_of_ok (h : Replaces files path content (.ok ()) after) : ∃ staging target,
    files.Writable (stagingPath path) staging ∧ files.Replaceable path target := by
  cases h with
  | done hs ht => exact ⟨_, _, hs, ht⟩

-- The target has its content once the replacement is done.
theorem read_of_ok (hp : path ≠ []) (h : Replaces files path content (.ok ()) after) :
    after.read path = .ok content := by
  cases h with
  | done hw hr =>
      rename_i staging target
      have hne := locate?_stagingPath_ne hp hw.locate hr.locate
      have hstaged : Files.entry? (files.set staging (.file content)) staging ≠
          some .directory := by
        rw [entry?_set_self files _ (names_ne_nil hw.notDirectory)]
        simp
      have htarget : Files.entry? ((files.set staging (.file content)).erase staging) target ≠
          some .directory := by
        rw [entry?_erase_ne hne, entry?_set_ne hne]
        exact hr.notDirectory
      have hlocate : Files.locate? (((files.set staging (.file content)).erase staging).set target
          (.file content)) path = some target := by
        refine (locate?_eq (fun place => ?_) path).trans hr.locate
        rw [isDirectory_set htarget, isDirectory_erase hstaged, isDirectory_set hw.notDirectory]
      have hentry := entry?_set_self ((files.set staging (.file content)).erase staging)
        (.file content) (names_ne_nil hr.notDirectory)
      unfold Files.read
      rw [hlocate, Option.bind_some, hentry]

end Replaces

end

end TypeStub.Command
