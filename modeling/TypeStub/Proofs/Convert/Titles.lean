import Mathlib.Data.List.Nodup
import Mathlib.Data.List.Perm.Subperm
import TypeStub.Convert
import TypeStub.Proofs.Token.Identifier

namespace TypeStub

-- A record name and the number that its class name gets, none for the first of that name.
def numbered (name : Text) : Nat → Text
  | 0 => name
  | number + 1 => name ++ '~' :: Text.ofNat (number + 1)

def quoted (name : Text) : Text := '\x60' :: name ++ ['\x60']

-- The class names of the records that were opened, the last first.
def titles : List Text → List Text
  | [] => []
  | name :: older => quoted (numbered name (older.count name)) :: titles older

theorem length_titles (opened : List Text) : (titles opened).length = opened.length := by
  induction opened with
  | nil => rfl
  | cons name older ih => exact congrArg (· + 1) ih

-- Two of the names get the same class name: one with a number is another one as it stands.
def Collides (opened : List Text) : Prop :=
  ∃ name number, 1 ≤ number ∧ number < opened.count name ∧ numbered name number ∈ opened

theorem Records.className_eq (records : Records) (name : Text) :
    records.className name = quoted (numbered name (records.opened.count name)) := by
  unfold Records.className
  split
  · rename_i hcount
    rw [hcount]
    rfl
  · rename_i seen hseen
    cases hcount : records.opened.count name with
    | zero => exact absurd hcount hseen
    | succ number => simp [numbered, quoted]

theorem quoted_inj {name other : Text} (h : quoted name = quoted other) : name = other := by
  simpa [quoted] using h

theorem ofNat_inj {m n : Nat} (h : Text.ofNat m = Text.ofNat n) : m = n :=
  calc
    m = Nat.ofDigitChars 10 (Text.ofNat m) 0 := Nat.ofDigitChars_ten_toDigits.symm
    _ = Nat.ofDigitChars 10 (Text.ofNat n) 0 := by rw [h]
    _ = n := Nat.ofDigitChars_ten_toDigits

theorem tilde_not_mem_ofNat (n : Nat) : '~' ∉ Text.ofNat n := fun hm =>
  absurd (Nat.isDigit_of_mem_toDigits (by decide) (by decide) hm) (by decide)

-- The last tilde of a text is where it was put.
theorem append_tilde_inj {name other digits more : Text} (hd : '~' ∉ digits) (hm : '~' ∉ more)
    (h : name ++ '~' :: digits = other ++ '~' :: more) : name = other ∧ digits = more := by
  obtain ⟨between, rfl, hrest⟩ | ⟨between, rfl, hrest⟩ := List.append_eq_append_iff.mp h
  · cases between with
    | nil => exact ⟨(List.append_nil _).symm, (List.cons.inj hrest).2⟩
    | cons c rest => exact absurd (by simp [(List.cons.inj hrest).2]) hd
  · cases between with
    | nil => exact ⟨List.append_nil _, (List.cons.inj hrest).2.symm⟩
    | cons c rest => exact absurd (by simp [(List.cons.inj hrest).2]) hm

theorem numbered_inj {name other : Text} {m n : Nat} (hm : 1 ≤ m) (hn : 1 ≤ n)
    (h : numbered name m = numbered other n) : name = other ∧ m = n := by
  obtain ⟨m, rfl⟩ := Nat.exists_eq_add_of_le' hm
  obtain ⟨n, rfl⟩ := Nat.exists_eq_add_of_le' hn
  obtain ⟨hname, hdigits⟩ :=
    append_tilde_inj (tilde_not_mem_ofNat _) (tilde_not_mem_ofNat _) h
  exact ⟨hname, ofNat_inj hdigits⟩

theorem mem_titles {opened : List Text} {title : Text} :
    title ∈ titles opened ↔
      ∃ name number, number < opened.count name ∧ title = quoted (numbered name number) := by
  induction opened with
  | nil => simp [titles]
  | cons head older ih =>
      rw [titles, List.mem_cons, ih]
      constructor
      · rintro (rfl | ⟨name, number, hlt, rfl⟩)
        · exact ⟨head, older.count head, by simp, rfl⟩
        · exact ⟨name, number, Nat.lt_of_lt_of_le hlt List.count_le_count_cons, rfl⟩
      · rintro ⟨name, number, hlt, rfl⟩
        by_cases hlast : name = head ∧ number = older.count head
        · obtain ⟨rfl, rfl⟩ := hlast
          exact .inl rfl
        · refine .inr ⟨name, number, ?_, rfl⟩
          rw [List.count_cons] at hlt
          by_cases hname : head = name
          · subst hname
            have hne : number ≠ older.count head := fun he => hlast ⟨rfl, he⟩
            simp only [beq_self_eq_true, if_true] at hlt
            omega
          · simpa [hname] using hlt

theorem numbered_ne {name : Text} {number : Nat} (h : 1 ≤ number) : numbered name number ≠ name := by
  obtain ⟨number, rfl⟩ := Nat.exists_eq_add_of_le' h
  intro he
  have hlength := congrArg List.length he
  simp [numbered] at hlength

theorem Collides.mono {opened more : List Text} (h : opened.Subperm more) (hc : Collides opened) :
    Collides more := by
  obtain ⟨name, number, hpos, hlt, hm⟩ := hc
  exact ⟨name, number, hpos, Nat.lt_of_lt_of_le hlt (h.count_le name), h.subset hm⟩

-- A new record repeats a class name just when it is what makes two names collide.
theorem collides_cons {name : Text} {older : List Text} :
    Collides (name :: older) ↔
      quoted (numbered name (older.count name)) ∈ titles older ∨ Collides older := by
  constructor
  · rintro ⟨other, number, hpos, hlt, hm⟩
    by_cases hlast : number < older.count other
    · by_cases hold : numbered other number ∈ older
      · exact .inr ⟨other, number, hpos, hlast, hold⟩
      · obtain rfl : numbered other number = name := (List.mem_cons.mp hm).resolve_right hold
        rw [List.count_eq_zero_of_not_mem hold]
        exact .inl (mem_titles.mpr ⟨other, number, hlast, rfl⟩)
    · have hname : name = other := by
        by_contra hne
        rw [List.count_cons_of_ne hne] at hlt
        exact hlast hlt
      subst hname
      rw [List.count_cons_self] at hlt
      obtain rfl : number = older.count name := by omega
      have hold := (List.mem_cons.mp hm).resolve_left (numbered_ne hpos)
      exact .inl (mem_titles.mpr ⟨_, 0, List.count_pos_iff.mpr hold, rfl⟩)
  · rintro (htitle | hc)
    · obtain ⟨other, number, hlt, hquoted⟩ := mem_titles.mp htitle
      have hnumbered := quoted_inj hquoted
      obtain hcount | hcount := Nat.eq_zero_or_pos (older.count name)
      · rw [hcount] at hnumbered
        obtain rfl : name = numbered other number := hnumbered
        obtain rfl | hpos := Nat.eq_zero_or_pos number
        · exact absurd hcount (Nat.ne_of_gt hlt)
        · exact ⟨other, number, hpos, Nat.lt_of_lt_of_le hlt List.count_le_count_cons, by simp⟩
      · obtain rfl | hpos := Nat.eq_zero_or_pos number
        · refine ⟨name, older.count name, hcount, by simp, ?_⟩
          rw [hnumbered]
          exact List.mem_cons_of_mem _ (List.count_pos_iff.mp hlt)
        · obtain ⟨rfl, hnumber⟩ := numbered_inj hcount hpos hnumbered
          omega
    · exact hc.mono (List.sublist_cons_self ..).subperm

theorem nodup_titles {opened : List Text} : (titles opened).Nodup ↔ ¬ Collides opened := by
  induction opened with
  | nil => simp [titles, Collides]
  | cons name older ih => rw [titles, List.nodup_cons, ih, collides_cons, not_or]

-- No identifier is another one with a number: a tilde is only inside backticks.
theorem not_identifier_numbered {name : Text} {number : Nat} (h : Identifier name)
    (hn : 1 ≤ number) : ¬ Identifier (numbered name number) := by
  obtain ⟨number, rfl⟩ := Nat.exists_eq_add_of_le' hn
  intro hnumbered
  generalize htext : numbered name (number + 1) = text at hnumbered
  cases h with
  | @word first rest hf hr hk =>
      cases hnumbered with
      | @word other more hother hmore hword =>
          obtain ⟨-, htail⟩ := List.cons.inj htext
          exact absurd (hmore '~' (by simp [← htail])) (by decide)
      | quoted =>
          obtain ⟨rfl, -⟩ := List.cons.inj htext
          exact absurd hf (by decide)
  | @quoted inner hne hb hl =>
      cases hnumbered with
      | @word other more hother hmore hword =>
          obtain ⟨rfl, -⟩ := List.cons.inj htext
          exact absurd hother (by decide)
      | @quoted inner' hne' hb' hl' =>
          have htail : inner ++ Lexeme.backtick :: '~' :: Text.ofNat (number + 1) =
              inner' ++ [Lexeme.backtick] := by
            simpa [numbered] using htext
          obtain ⟨between, rfl, hrest⟩ | ⟨between, rfl, hrest⟩ := List.append_eq_append_iff.mp htail
          · cases between with
            | nil => simp at hrest
            | cons c others => exact hb' (by simp [(List.cons.inj hrest).1])
          · cases between with
            | nil => simp at hrest
            | cons c others => simp at hrest

-- So identifiers never collide.
theorem not_collides_of_identifiers {opened : List Text} (h : ∀ name ∈ opened, Identifier name) :
    ¬ Collides opened := by
  rintro ⟨name, number, hpos, hlt, hm⟩
  have hname : name ∈ opened := List.count_pos_iff.mp (Nat.zero_lt_of_lt hlt)
  exact not_identifier_numbered (h name hname) hpos (h _ hm)

end TypeStub
