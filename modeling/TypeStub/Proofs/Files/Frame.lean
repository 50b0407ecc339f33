import TypeStub.Files

-- What a change at one place leaves as it is.
namespace TypeStub.Files

section

variable {files more : Files} {location other : Location} {entry : Entry}

theorem lookup_erase : (files.erase location).lookup other =
    if other = location then none else files.lookup other := by
  induction files with
  | nil => simp [erase]
  | cons first rest ih =>
      obtain ⟨place, found⟩ := first
      rw [erase, List.filter_cons]
      by_cases hplace : place = location
      · rw [if_neg (by simpa using hplace), ← erase, ih, hplace]
        by_cases hother : other = location
        · rw [if_pos hother, if_pos hother]
        · rw [if_neg hother, if_neg hother, List.lookup_cons, beq_false_of_ne hother]
      · rw [if_pos (by simpa using hplace), List.lookup_cons, List.lookup_cons, ← erase, ih]
        by_cases hother : other = place
        · simp only [hother, if_neg hplace, beq_self_eq_true]
        · rw [beq_false_of_ne hother]

theorem entry?_erase_self (files : Files) (hn : location.names ≠ []) :
    entry? (files.erase location) location = none := by
  unfold entry?
  rw [if_neg hn, lookup_erase, if_pos rfl]

theorem entry?_erase_ne (h : other ≠ location) :
    entry? (files.erase location) other = files.entry? other := by
  unfold entry?
  rw [lookup_erase, if_neg h]

theorem entry?_set_self (files : Files) (entry : Entry) (hn : location.names ≠ []) :
    entry? (files.set location entry) location = some entry := by
  unfold entry?
  rw [if_neg hn, set, List.lookup_cons, beq_self_eq_true]

theorem entry?_set_ne (h : other ≠ location) :
    entry? (files.set location entry) other = files.entry? other := by
  unfold entry?
  rw [set, List.lookup_cons, beq_false_of_ne h, lookup_erase, if_neg h]

-- Fewer directories lead to fewer places, and to the same ones.
theorem walk_of_directories (hd : ∀ place, more.entry? place = some .directory →
      files.entry? place = some .directory) {start : Location} {pieces : List Text}
    (h : more.walk start pieces = some location) : files.walk start pieces = some location := by
  induction pieces generalizing start with
  | nil => exact h
  | cons piece rest ih =>
      rw [walk] at h ⊢
      split at h
      · rename_i hdir
        rw [if_pos (hd start hdir)]
        exact ih h
      · simp at h

theorem locate?_of_directories (hd : ∀ place, more.entry? place = some .directory →
      files.entry? place = some .directory) {path : Text}
    (h : more.locate? path = some location) : files.locate? path = some location := by
  unfold locate? at h ⊢
  split at h
  · simp at h
  · rename_i hpath
    rw [if_neg hpath]
    exact walk_of_directories hd h

-- Where there are the same directories a path leads to the same place.
theorem locate?_eq (hd : ∀ place, more.entry? place = some .directory ↔
      files.entry? place = some .directory) (path : Text) :
    more.locate? path = files.locate? path := by
  refine Option.ext fun place => ⟨fun h => ?_, fun h => ?_⟩
  · exact locate?_of_directories (fun p => (hd p).mp) h
  · exact locate?_of_directories (fun p => (hd p).mpr) h

-- A walk ends with the step that its last piece makes from a directory.
theorem walk_concat (start : Location) (pieces : List Text) (last : Text) :
    files.walk start (pieces ++ [last]) = (files.walk start pieces).bind fun place =>
      if files.entry? place = some .directory then some (place.step last) else none := by
  induction pieces generalizing start with
  | nil => rfl
  | cons piece rest ih =>
      rw [List.cons_append, walk, walk]
      split
      · exact ih _
      · rfl

end

section

variable {files after : Files} {location place : Location} {path content : Text}

theorem names_ne_nil (h : files.entry? location ≠ some .directory) : location.names ≠ [] := by
  intro hn
  unfold entry? at h
  rw [if_pos hn] at h
  exact h rfl

-- A file in the place of another one, or of nothing, leaves the directories as they are.
theorem isDirectory_set (h : files.entry? location ≠ some .directory) :
    entry? (files.set location (.file content)) place = some .directory ↔
      files.entry? place = some .directory := by
  by_cases hp : place = location
  · subst hp
    rw [entry?_set_self files _ (names_ne_nil h)]
    simp [h]
  · rw [entry?_set_ne hp]

theorem isDirectory_erase (h : files.entry? location ≠ some .directory) :
    entry? (files.erase location) place = some .directory ↔
      files.entry? place = some .directory := by
  by_cases hp : place = location
  · subst hp
    rw [entry?_erase_self files (names_ne_nil h)]
    simp [h]
  · rw [entry?_erase_ne hp]

-- Removing what a path names leaves every other place as it is.
theorem entry?_remove (files : Files) (path : Text) (place : Location) :
    entry? (files.remove path) place = files.entry? place ∨
      files.locate? path = some place ∧ entry? (files.remove path) place = none := by
  unfold remove
  cases hl : files.locate? path with
  | none => exact .inl rfl
  | some location =>
      dsimp only
      split
      · exact .inl rfl
      · by_cases hp : place = location
        · subst hp
          by_cases hn : place.names = []
          · left
            unfold entry?
            rw [if_pos hn, if_pos hn]
          · exact .inr ⟨rfl, entry?_erase_self files hn⟩
        · exact .inl (entry?_erase_ne hp)

-- A place for a file's content: it holds no directory, and its names are not too long.
structure Writable (files : Files) (path : Text) (location : Location) : Prop where
  locate : files.locate? path = some location
  notDirectory : files.entry? location ≠ some .directory
  short : ∀ name ∈ location.names, name.length ≤ nameLimit

theorem write?_of_writable (h : files.Writable path location) :
    files.write? path content = some (files.set location (.file content)) := by
  simpa [write?, h.locate, h.notDirectory] using h.short

theorem writable_of_write? (h : files.write? path content = some after) :
    ∃ location, files.Writable path location ∧ after = files.set location (.file content) := by
  unfold write? at h
  cases hl : files.locate? path with
  | none => simp [hl] at h
  | some location =>
      by_cases hd : files.entry? location = some .directory
      · simp [hl, hd] at h
      · obtain ⟨hshort, hafter⟩ : (∀ name ∈ location.names, name.length ≤ nameLimit) ∧
            files.set location (.file content) = after := by simpa [hl, hd] using h
        exact ⟨location, ⟨hl, hd, hshort⟩, hafter.symm⟩

-- A path over which a file may be moved: it names a file or nothing, and it ends in a name.
structure Replaceable (files : Files) (path : Text) (location : Location) : Prop where
  endsInName : endsInName path = true
  noSeparator : path.getLast? ≠ some '/'
  locate : files.locate? path = some location
  notDirectory : files.entry? location ≠ some .directory

theorem rename_of_replaceable {source : Text} {origin : Location}
    (h : files.Replaceable path location) (hs : files.locate? source = some origin)
    (ho : files.entry? origin = some (.file content)) :
    files.rename source path = .ok ((files.erase origin).set location (.file content)) := by
  simp [rename, h.endsInName, h.noSeparator, h.locate, h.notDirectory, hs, ho]
  rfl

-- Past a check that would have failed.
theorem unless_ok {ε α β : Type} {c : Prop} [Decidable c] {e : ε} {p : Except ε β}
    {f : α → Except ε β} {b : β} (h : (if c then p else throw e >>= f) = .ok b) :
    c ∧ p = .ok b := by
  split at h
  · exact ⟨‹_›, h⟩
  · exact nomatch h

theorem when_ok {ε α β : Type} {c : Prop} [Decidable c] {e : ε} {p : Except ε β}
    {f : α → Except ε β} {b : β} (h : (if c then throw e >>= f else p) = .ok b) :
    ¬c ∧ p = .ok b := by
  split at h
  · exact nomatch h
  · exact ⟨‹_›, h⟩

theorem replaceable_of_rename {source : Text} (h : files.rename source path = .ok after) :
    ∃ location, files.Replaceable path location := by
  unfold rename at h
  obtain ⟨hname, h⟩ := unless_ok h
  split at h
  · split at h
    · obtain ⟨hseparator, h⟩ := when_ok h
      split at h
      · rename_i location hl
        exact ⟨location, hname, hseparator, hl, (when_ok h).1⟩
      · exact nomatch h
    · exact nomatch h
  · exact nomatch h

-- Files of which each lies in a directory.
def IsTree (files : Files) : Prop :=
  ∀ listed ∈ files, files.entry? listed.1.parent = some .directory

instance (files : Files) : Decidable files.IsTree :=
  inferInstanceAs (Decidable (∀ listed ∈ files, files.entry? listed.1.parent = some .directory))

-- In a tree nothing lies below a place that holds no directory, also once it holds a file.
theorem IsTree.hasEntriesIn_set (ht : files.IsTree)
    (h : files.entry? location ≠ some .directory) :
    (files.set location (.file content)).hasEntriesIn location = false := by
  rw [hasEntriesIn, List.any_eq_false]
  intro listed hm hparent
  have hplace := eq_of_beq hparent
  rcases List.mem_cons.mp hm with rfl | hm
  · have hn := names_ne_nil h
    have hnames := congrArg (List.length ∘ Location.names) hplace
    have hpos := List.length_pos_iff.mpr hn
    simp only [Location.parent, if_neg hn, Function.comp_apply, List.length_dropLast] at hnames
    omega
  · have hlisted := ht listed (List.mem_filter.mp hm).1
    rw [hplace] at hlisted
    exact h hlisted

end

-- A suffix without separators belongs to the last piece.
theorem splitOn_append {separator : Char} {suffix : Text} (hs : separator ∉ suffix) (path : Text) :
    ∃ pieces last, path.splitOn separator = pieces ++ [last] ∧
      (path ++ suffix).splitOn separator = pieces ++ [last ++ suffix] := by
  induction path with
  | nil => exact ⟨[], [], rfl, List.splitOn_eq_singleton hs⟩
  | cons c rest ih =>
      obtain ⟨pieces, last, hrest, happended⟩ := ih
      rw [List.cons_append, List.splitOn_cons_eq_if_modifyHead,
        List.splitOn_cons_eq_if_modifyHead, hrest, happended]
      by_cases hc : (c == separator) = true
      · rw [if_pos hc, if_pos hc]
        exact ⟨[] :: pieces, last, rfl, rfl⟩
      · rw [if_neg hc, if_neg hc]
        cases pieces with
        | nil => exact ⟨[], c :: last, rfl, rfl⟩
        | cons first more => exact ⟨(c :: first) :: more, last, rfl, rfl⟩

-- A path leads to the step that its last piece makes from where the others lead.
theorem step_of_locate? {files : Files} {path last : Text} {pieces : List Text}
    {location : Location} (hpath : path.splitOn '/' = pieces ++ [last])
    (h : files.locate? path = some location) :
    ∃ place, files.walk (start path) pieces = some place ∧ place.step last = location := by
  unfold locate? at h
  split at h
  · simp at h
  · rw [hpath, walk_concat, Option.bind_eq_some_iff] at h
    obtain ⟨place, hplace, hstep⟩ := h
    split at hstep
    · exact ⟨place, hplace, Option.some.inj hstep⟩
    · simp at hstep

end TypeStub.Files

namespace TypeStub.Location

-- A piece leads down by its name, or else not down at all.
theorem step_cases (location : Location) (piece : Text) :
    location.step piece = location.child piece ∨
      (location.step piece).names.length ≤ location.names.length := by
  unfold step
  split
  · exact .inr (Nat.le_refl _)
  split
  · right
    unfold parent
    split
    · exact Nat.le_refl _
    · exact List.length_dropLast ▸ Nat.sub_le _ _
  · exact .inl rfl

theorem step_eq_child {piece : Text} (h : 2 < piece.length) (location : Location) :
    location.step piece = location.child piece := by
  unfold step
  rw [if_neg, if_neg]
  · rintro rfl
    exact absurd h (by decide)
  · rintro (rfl | rfl) <;> exact absurd h (by decide)

theorem step_ne_child {suffix : Text} (hs : suffix ≠ []) (location : Location) (piece : Text) :
    location.step piece ≠ location.child (piece ++ suffix) := by
  intro h
  rcases location.step_cases piece with hchild | hup
  · rw [hchild] at h
    have hnames := List.append_cancel_left (congrArg Location.names h)
    exact hs (by simpa using hnames)
  · have hlength := congrArg (List.length ∘ Location.names) h
    simp only [Function.comp_apply, child, List.length_append, List.length_singleton] at hlength
    omega

end TypeStub.Location
