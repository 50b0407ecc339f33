import TypeStub.Options
import TypeStub.Proofs.Ensures
import TypeStub.Proofs.Number.Spelling
import TypeStub.Proofs.Text.Beginning

-- Which texts name a version.
namespace TypeStub

-- A non-empty run of decimal digits, and its value.
def Decimal (text : Text) (n : Nat) : Prop :=
  ∃ digits, digits ≠ [] ∧ List.Forall₂ (Digit 10) text digits ∧ n = Nat.ofDigits 10 digits.reverse

namespace Setting

-- Digits with a value in range.
def Digits (text : Text) (value : Int) : Prop :=
  ∃ n : Nat, Decimal text n ∧ n ≤ greatestComponent ∧ value = n

-- What is read as a component: digits with a value in range, or zeros behind a minus sign.
inductive Component : Text → Int → Prop
  | digits {text : Text} {value : Int} (h : Digits text value) : Component text value
  | minusZero {zeros : Text} (h : Decimal zeros 0) : Component ('-' :: zeros) 0

-- One to three components with single dots between them.
def Dotted (component : Text → Int → Prop) (text : Text) (values : List Int) : Prop :=
  ∃ pieces : List Text, pieces ≠ [] ∧ pieces.length ≤ 3 ∧ text = Text.joinWith "." pieces ∧
    List.Forall₂ component pieces values

end Setting

section

variable {n d value : Nat} {c : Char} {text : Text}

theorem digit_of_digitValue (h : digitValue? 10 c = some d) : Digit 10 c d := by
  by_cases hdigit : c.isDigit = true
  · obtain ⟨hlow, hhigh⟩ := isDigit_range hdigit
    have hc : c = Nat.digitChar (c.toNat - 48) := by
      rw [← Char.ofNat_toNat c]
      interval_cases c.toNat <;> rfl
    have hvalue : digitValue? 10 c = some (c.toNat - 48) := by
      have hsmall : c.toNat - '0'.toNat < 10 := by
        rw [show '0'.toNat = 48 from rfl]
        omega
      rw [digitValue?, if_pos hdigit]
      exact if_pos hsmall
    obtain rfl := Option.some.inj (hvalue.symm.trans h)
    exact ⟨by omega, .inl hc⟩
  · -- A letter stands for ten or more.
    have hnone : digitValue? 10 c = none := by
      rw [digitValue?, if_neg hdigit]
      exact if_neg (by split_ifs <;> omega)
    rw [hnone] at h
    cases h

theorem digits_of_foldDigits (h : foldDigits? 10 value text = some n) :
    ∃ digits, List.Forall₂ (Digit 10) text digits := by
  induction text generalizing value with
  | nil => exact ⟨[], .nil⟩
  | cons c rest ih =>
      rw [foldDigits?] at h
      split at h
      · rename_i d hd
        obtain ⟨digits, hrest⟩ := ih h
        exact ⟨d :: digits, .cons (digit_of_digitValue hd) hrest⟩
      · cases h

theorem readNat_eq_some_iff : readNat? 10 text = some n ↔ Decimal text n := by
  constructor
  · intro h
    by_cases hempty : text = []
    · rw [readNat?, if_pos hempty] at h
      cases h
    · have hfold : foldDigits? 10 0 text = some n := by rwa [readNat?, if_neg hempty] at h
      obtain ⟨digits, hdigits⟩ := digits_of_foldDigits hfold
      have hne : digits ≠ [] := by
        rintro rfl
        cases hdigits
        exact hempty rfl
      have hread := readNat_eq hdigits (by decide) hne
      exact ⟨digits, hne, hdigits, Option.some.inj (h.symm.trans hread)⟩
  · rintro ⟨digits, hne, hdigits, rfl⟩
    exact readNat_eq hdigits (by decide) hne

theorem Decimal.isDigit (h : Decimal text n) (hc : c ∈ text) : c.isDigit = true := by
  obtain ⟨digits, -, hdigits, -⟩ := h
  obtain ⟨d, -, hd⟩ := exists_of_mem_forall₂ hdigits.flip hc
  have hdigit : Digit 10 c d := hd
  exact (hdigit.facts (by decide)).decimal (Nat.le_refl 10)

end

namespace Setting

section

variable {text : Text} {value : Int} {values : List Int} {component : Text → Int → Prop}

theorem Digits.isDigit (h : Digits text value) {c : Char} (hc : c ∈ text) : c.isDigit = true := by
  obtain ⟨n, hn, -, -⟩ := h
  exact hn.isDigit hc

theorem Component.dot_not_mem (h : Component text value) : '.' ∉ text := by
  intro hdot
  cases h with
  | digits h => exact absurd (h.isDigit hdot) (by decide)
  | minusZero h =>
      rcases List.mem_cons.mp hdot with heq | hmem
      · exact absurd heq (by decide)
      · exact absurd (h.isDigit hmem) (by decide)

theorem component?_eq_some_iff : component? text = some value ↔ Component text value := by
  unfold component?
  split
  · rename_i zeros
    constructor
    · intro h
      split at h
      · rename_i hzero
        obtain rfl := Option.some.inj h
        exact .minusZero (readNat_eq_some_iff.mp hzero)
      · cases h
    · intro h
      cases h with
      | digits h => exact absurd (h.isDigit List.mem_cons_self) (by decide)
      | minusZero h => rw [if_pos (readNat_eq_some_iff.mpr h)]
  · rename_i hminus
    constructor
    · intro h
      split at h
      · rename_i n hn
        split at h
        · rename_i hle
          exact .digits ⟨n, readNat_eq_some_iff.mp hn, hle, (Option.some.inj h).symm⟩
        · cases h
      · cases h
    · intro h
      cases h with
      | digits h =>
          obtain ⟨n, hn, hle, rfl⟩ := h
          rw [readNat_eq_some_iff.mpr hn]
          exact if_pos hle
      | @minusZero zeros h => exact absurd rfl (hminus zeros)

-- Without dots in the components, they are the pieces between the dots.
theorem Dotted.pieces (hdot : ∀ {text value}, component text value → '.' ∉ text)
    (h : Dotted component text values) :
    (text.splitOn '.').length ≤ 3 ∧ List.Forall₂ component (text.splitOn '.') values := by
  obtain ⟨pieces, hne, hlength, rfl, hpieces⟩ := h
  have hsplit : (Text.joinWith "." pieces).splitOn '.' = pieces := by
    refine List.splitOn_intercalate '.' (fun piece hpiece => ?_) hne
    obtain ⟨value, -, hvalue⟩ := exists_of_mem_forall₂ hpieces.flip hpiece
    exact hdot hvalue
  rw [hsplit]
  exact ⟨hlength, hpieces⟩

theorem mapM_eq_some_iff {α β : Type} {f : α → Option β} {as : List α} {bs : List β} :
    as.mapM f = some bs ↔ List.Forall₂ (fun a b => f a = some b) as bs := by
  induction as generalizing bs with
  | nil => simp [eq_comm]
  | cons a rest ih =>
      rw [List.mapM_cons, List.forall₂_cons_left_iff]
      simp only [Option.bind_eq_bind, Option.bind_eq_some_iff]
      constructor
      · rintro ⟨b, hb, more, hmore, heq⟩
        exact ⟨b, more, hb, ih.mp hmore, (Option.some.inj heq).symm⟩
      · rintro ⟨b, more, hb, hmore, rfl⟩
        exact ⟨b, hb, more, ih.mpr hmore, rfl⟩

theorem version?_eq_some_iff : version? text = some values ↔ Dotted Component text values := by
  have hcomponents : (text.splitOn '.').mapM component? = some values ↔
      List.Forall₂ Component (text.splitOn '.') values := by
    simp only [mapM_eq_some_iff, component?_eq_some_iff]
  rw [version?]
  constructor
  · intro h
    split at h
    · rename_i hlength
      refine ⟨text.splitOn '.', List.splitOn_ne_nil _ _, hlength, ?_, hcomponents.mp h⟩
      exact (List.intercalate_splitOn '.').symm
    · cases h
  · intro h
    obtain ⟨hlength, hpieces⟩ := h.pieces Component.dot_not_mem
    rw [if_pos hlength]
    exact hcomponents.mpr hpieces

end

end Setting

namespace Options

-- The argument that sets the version.
def versionArgument (text : Text) : Text := "--python-version=" ++ text

theorem ofArgument_version (text : Text) : Setting.ofArgument (versionArgument text) =
    match Setting.version? text with
    | some values => .ok (.version values)
    | none => .error (.badVersion text) := by
  have hafter : Text.after? "--python-version=" (versionArgument text) = some text :=
    after?_append _ _
  have houtput : Text.after? "-o" (versionArgument text) = none :=
    after?_eq_none (by decide) (by decide) text
  have hname : Text.after? "--name=" (versionArgument text) = none :=
    after?_eq_none (by decide) (by decide) text
  have hne {flag : Text} (h : ¬ "--python-version=".toList <+: flag) :
      versionArgument text ≠ flag := append_ne_of_not_prefix h text
  have hflag : Setting.flag? (versionArgument text) = none := by
    rw [Setting.flag?, if_neg (not_or.mpr ⟨hne (by decide), hne (by decide)⟩),
      if_neg (hne (by decide)), if_neg (hne (by decide)), if_neg (hne (by decide))]
  rw [Setting.ofArgument, houtput, hflag, Setting.valued?, hname, hafter]
  rfl

theorem read_versionArgument (options : Options) (text : Text) (rest : List Text) :
    options.read (versionArgument text :: rest) =
      match Setting.version? text with
      | some values => (options.apply (.version values)).read rest
      | none => (options, some (.badVersion text)) := by
  have hne {flag : Text} (h : ¬ "--python-version=".toList <+: flag) :
      versionArgument text ≠ flag := append_ne_of_not_prefix h text
  rw [read.eq_def]
  dsimp only
  rw [if_neg (hne (by decide)), if_neg (hne (by decide)), ofArgument_version]
  cases Setting.version? text <;> rfl

-- A text is a version when it is one to three components with dots between them, and then its values
-- replace the version that was there. With any other text the version is left as it was.
theorem read_version (options : Options) (text : Text) :
    (∀ values, Setting.version? text = some values ↔
      Setting.Dotted Setting.Component text values) ∧
    ∀ rest, (∀ values, Setting.Dotted Setting.Component text values →
        options.read (versionArgument text :: rest) =
          { options with target := { options.target with version := values } }.read rest) ∧
      ((¬ ∃ values, Setting.Dotted Setting.Component text values) →
        options.read (versionArgument text :: rest) = (options, some (.badVersion text))) := by
  refine ⟨fun values => Setting.version?_eq_some_iff, fun rest => ?_⟩
  refine ⟨fun values h => ?_, fun h => ?_⟩
  · rw [read_versionArgument, Setting.version?_eq_some_iff.mpr h]
    rfl
  · rw [read_versionArgument]
    cases hversion : Setting.version? text with
    | none => rfl
    | some values => exact absurd ⟨values, Setting.version?_eq_some_iff.mp hversion⟩ h

-- Zeros in front and the greatest component, and then one more component than there may be.
theorem read_version_bounds :
    Setting.Dotted Setting.Component "3.010.2147483647" [3, 10, 2147483647] ∧
    (¬ ∃ values, Setting.Dotted Setting.Component "1.2.3.4" values) ∧
    (standard.read [versionArgument "3.010.2147483647", versionArgument "1.2.3.4", "in"]) =
      ({ standard with target := { standard.target with version := [3, 10, 2147483647] } },
        some (.badVersion "1.2.3.4")) := by
  have hgood : Setting.Dotted Setting.Component "3.010.2147483647" [3, 10, 2147483647] :=
    Setting.version?_eq_some_iff.mp (by decide +kernel)
  have hbad : ¬ ∃ values, Setting.Dotted Setting.Component "1.2.3.4" values := by
    rintro ⟨values, h⟩
    have hnone : Setting.version? "1.2.3.4" = none := by decide
    rw [Setting.version?_eq_some_iff.mpr h] at hnone
    cases hnone
  refine ⟨hgood, hbad, ?_⟩
  rw [((read_version standard _).2 _).1 _ hgood]
  exact ((read_version _ _).2 _).2 hbad

-- Zero may stand behind a minus sign, which is no digit.
theorem minusZero_version :
    Setting.version? "-0" = some [0] ∧ (¬ ∃ values, Setting.Dotted Setting.Digits "-0" values) ∧
    standard.read [versionArgument "-0"] =
      ({ standard with target := { standard.target with version := [0] } }, none) := by
  have hversion : Setting.version? "-0" = some [0] := by decide
  refine ⟨hversion, ?_, ?_⟩
  · rintro ⟨values, h⟩
    have hdot : ∀ {text value}, Setting.Digits text value → '.' ∉ text := fun hd =>
      (Setting.Component.digits hd).dot_not_mem
    have hpieces := (h.pieces hdot).2
    rw [show ("-0".toList).splitOn '.' = ["-0".toList] by decide] at hpieces
    obtain ⟨value, -, hdigits, -⟩ := List.forall₂_cons_left_iff.mp hpieces
    exact absurd (hdigits.isDigit (c := '-') (by decide)) (by decide)
  · rw [read_versionArgument, hversion]
    rfl

end Options

end TypeStub
