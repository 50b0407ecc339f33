import Mathlib.Data.List.Basic
import TypeStub.Proofs.Number.Spelling

-- The grammar of JSON, over the bytes of a document in UTF-8.
namespace TypeStub

-- What a document says. Numbers, and strings between their quotation marks, are as written.
inductive Json
  | word (text : Text)
  | number (text : Text)
  | string (body : Text)
  | array (items : List Json)
  | object (members : List (Text × Json))

namespace Json

def Blank (text : Text) : Prop := ∀ c ∈ text, c ∈ [' ', '\t', '\n', '\r']

instance : DecidablePred Blank := fun text =>
  decidable_of_iff (text.all ([' ', '\t', '\n', '\r'].contains ·) = true) (by simp [Blank])

def Digits (text : Text) : Prop := text ≠ [] ∧ ∀ c ∈ text, c.isDigit = true

-- No zero stands before other digits.
def Whole (text : Text) : Prop := Digits text ∧ (text.head? = some '0' → text = ['0'])

def Fraction (text : Text) : Prop := text = [] ∨ ∃ digits, Digits digits ∧ text = '.' :: digits

def Exponent (text : Text) : Prop :=
  text = [] ∨ ∃ mark sign digits, mark ∈ ['e', 'E'] ∧ sign ∈ [[], ['+'], ['-']] ∧
    Digits digits ∧ text = mark :: (sign ++ digits)

def Number (text : Text) : Prop :=
  ∃ sign whole fraction exponent, sign ∈ [[], ['-']] ∧ Whole whole ∧ Fraction fraction ∧
    Exponent exponent ∧ text = sign ++ whole ++ fraction ++ exponent

def utf8 (c : Char) : Text := (String.utf8EncodeChar c).map fun byte => Char.ofNat byte.toNat

def utf16 (c : Char) : List Nat :=
  if c.toNat < 0x10000 then [c.toNat]
  else [0xd800 + (c.toNat - 0x10000) / 0x400, 0xdc00 + (c.toNat - 0x10000) % 0x400]

-- The letters behind a backslash, and the characters for which they stand.
def escapes : List (Char × Char) :=
  [('"', '"'), ('\\', '\\'), ('/', '/'), ('b', '\x08'), ('f', '\x0c'), ('n', '\n'), ('r', '\r'),
    ('t', '\t')]

-- What stands between the quotation marks of a string, and the UTF-16 units that it spells.
inductive Spells : Text → List Nat → Prop
  | nil : Spells [] []
  | plain {c : Char} {rest : Text} {units : List Nat} : ' ' ≤ c → c ≠ '"' → c ≠ '\\' →
      Spells rest units → Spells (utf8 c ++ rest) (utf16 c ++ units)
  | escape {letter c : Char} {rest : Text} {units : List Nat} : (letter, c) ∈ escapes →
      Spells rest units → Spells ('\\' :: letter :: rest) (c.toNat :: units)
  | unit {a b c d : Char} {x y z w : Nat} {rest : Text} {units : List Nat} :
      Digit 16 a x → Digit 16 b y → Digit 16 c z → Digit 16 d w → Spells rest units →
      Spells ('\\' :: 'u' :: a :: b :: c :: d :: rest) (Nat.ofDigits 16 [w, z, y, x] :: units)

def Body (text : Text) : Prop := ∃ units, Spells text units

-- Two ways of writing one key.
def SameKey (a b : Text) : Prop := ∃ units, Spells a units ∧ Spells b units

-- No two of the keys are the same, however they are written.
def Apart (keys : List Text) : Prop := keys.Pairwise fun a b => ¬ SameKey a b

-- A member of an object as it is written, with the text of its value.
structure Member where
  before : Text
  key : Text
  after : Text
  value : Json
  text : Text

namespace Member

def written (m : Member) : Text := m.before ++ '"' :: m.key ++ '"' :: m.after ++ ':' :: m.text

structure Formed (m : Member) : Prop where
  before : Blank m.before
  key : Body m.key
  after : Blank m.after

end Member

-- A value and its text, with white space around it.
inductive Element : Json → Text → Prop
  | padded {tree : Json} {before text after : Text} : Blank before → Element tree text →
      Blank after → Element tree (before ++ text ++ after)
  | word {text : Text} : text ∈ (["true", "false", "null"] : List Text) → Element (.word text) text
  | number {text : Text} : Number text → Element (.number text) text
  | string {body : Text} : Body body → Element (.string body) ('"' :: body ++ ['"'])
  | array {items : List (Json × Text)} {gap : Text} : (∀ item ∈ items, Element item.1 item.2) →
      Blank gap → Element (.array (items.map Prod.fst))
        ('[' :: Text.joinWith "," (items.map Prod.snd) ++ gap ++ [']'])
  | object {members : List Member} {gap : Text} : (∀ m ∈ members, m.Formed) →
      (∀ m ∈ members, Element m.value m.text) → Blank gap →
      Element (.object (members.map fun m => (m.key, m.value)))
        ('\x7b' :: Text.joinWith "," (members.map Member.written) ++ gap ++ ['\x7d'])

-- No object, however deep, has a key twice.
inductive NoRepeats : Json → Prop
  | word {text : Text} : NoRepeats (.word text)
  | number {text : Text} : NoRepeats (.number text)
  | string {body : Text} : NoRepeats (.string body)
  | array {items : List Json} : (∀ item ∈ items, NoRepeats item) → NoRepeats (.array items)
  | object {members : List (Text × Json)} :
      Apart (members.map Prod.fst) → (∀ m ∈ members, NoRepeats m.2) → NoRepeats (.object members)

section

variable {a b text : Text} {units : List Nat} {c d : Char} {n : Nat} {tree : Json}

-- Surrogates are not characters, so the first unit tells how many units a character has.
theorem utf16_append_inj {more : List Nat} (h : utf16 c ++ units = utf16 d ++ more) :
    c = d ∧ units = more := by
  have hc : c.toNat < 0xd800 ∨ 0xdfff < c.toNat ∧ c.toNat < 0x110000 := c.valid
  have hd : d.toNat < 0xd800 ∨ 0xdfff < d.toNat ∧ d.toNat < 0x110000 := d.valid
  unfold utf16 at h
  split at h <;> split at h <;>
    simp only [List.cons_append, List.nil_append, List.cons.injEq] at h
  · exact ⟨Char.toNat_inj.mp h.1, h.2⟩
  · omega
  · omega
  · exact ⟨Char.toNat_inj.mp (by omega), h.2.2⟩

theorem utf16_ne_nil (c : Char) : utf16 c ≠ [] := by
  rw [utf16]
  split <;> simp

-- Without a backslash, what is written is what is spelled.
theorem Spells.eq_of_plain (ha : Spells a units) (hb : Spells b units) (hplain : '\\' ∉ a)
    (hplain' : '\\' ∉ b) : a = b := by
  induction ha generalizing b with
  | nil =>
      generalize hunits : ([] : List Nat) = all at hb
      cases hb with
      | nil => rfl
      | plain => simp [utf16_ne_nil] at hunits
      | escape => cases hunits
      | unit => cases hunits
  | @plain c rest units _ _ _ _ ih =>
      generalize hunits : utf16 c ++ units = all at hb
      cases hb with
      | nil => simp [utf16_ne_nil] at hunits
      | plain _ _ _ hrest =>
          obtain ⟨rfl, rfl⟩ := utf16_append_inj hunits
          rw [ih hrest (fun h => hplain (List.mem_append_right _ h))
            (fun h => hplain' (List.mem_append_right _ h))]
      | escape => simp at hplain'
      | unit => simp at hplain'
  | escape => simp at hplain
  | unit => simp at hplain

theorem sameKey_iff_eq (ha : Body a) (hplain : '\\' ∉ a) (hplain' : '\\' ∉ b) :
    SameKey a b ↔ a = b := by
  constructor
  · rintro ⟨units, ha, hb⟩
    exact ha.eq_of_plain hb hplain hplain'
  · rintro rfl
    obtain ⟨units, ha⟩ := ha
    exact ⟨units, ha, ha⟩

theorem apart_perm {keys keys' : List Text} (h : keys.Perm keys') : Apart keys ↔ Apart keys' :=
  h.pairwise_iff fun hab ⟨units, hb, ha⟩ => hab ⟨units, ha, hb⟩

theorem apart_iff_nodup {keys : List Text} (hbody : ∀ key ∈ keys, Body key)
    (hplain : ∀ key ∈ keys, '\\' ∉ key) : Apart keys ↔ keys.Nodup :=
  List.Pairwise.iff_of_mem fun ha hb =>
    not_congr (sameKey_iff_eq (hbody _ ha) (hplain _ ha) (hplain _ hb))

-- Plain ASCII stands for itself.
theorem body_of_ascii
    (h : (text.all fun c => ' ' ≤ c ∧ c ≠ '"' ∧ c ≠ '\\' ∧ c ≤ '\x7f') = true) : Body text := by
  induction text with
  | nil => exact ⟨[], .nil⟩
  | cons c rest ih =>
      simp only [List.all_cons, Bool.and_eq_true, decide_eq_true_eq] at h
      obtain ⟨⟨hlow, hquote, hslash, hhigh⟩, hrest⟩ := h
      obtain ⟨units, hspells⟩ := ih hrest
      have hutf8 : utf8 c = [c] := by
        have hsmall : c.val.toNat ≤ 127 := hhigh
        have hbyte : (UInt8.ofNat c.val.toNat).toNat = c.toNat := by
          rw [UInt8.toNat_ofNat', Nat.mod_eq_of_lt (by omega)]
          rfl
        rw [utf8, String.utf8EncodeChar, if_pos hsmall, List.map_singleton, hbyte, Char.ofNat_toNat]
      exact ⟨utf16 c ++ units, by simpa [hutf8] using Spells.plain hlow hquote hslash hspells⟩

theorem digits_ofNat (n : Nat) : Digits (Text.ofNat n) :=
  ⟨Nat.toDigits_ne_nil, fun _ hc => Nat.isDigit_of_mem_toDigits (by decide) (by decide) hc⟩

theorem head?_ofNat (h : 0 < n) : (Text.ofNat n).head? ≠ some '0' := by
  induction n using Nat.strongRecOn with
  | _ n ih =>
      by_cases hsmall : n < 10
      · interval_cases n <;> decide
      · rw [Text.ofNat, Nat.toDigits_of_base_le (by decide) (Nat.le_of_not_lt hsmall),
          List.head?_append_of_ne_nil _ Nat.toDigits_ne_nil]
        exact ih (n / 10) (by omega) (by omega)

theorem whole_ofNat (n : Nat) : Whole (Text.ofNat n) := by
  refine ⟨digits_ofNat n, fun hzero => ?_⟩
  cases n with
  | zero => rfl
  | succ n => exact absurd hzero (head?_ofNat n.succ_pos)

theorem number_ofNat (n : Nat) : Number (Text.ofNat n) :=
  ⟨[], Text.ofNat n, [], [], by simp, whole_ofNat n, .inl rfl, .inl rfl, by simp⟩

theorem Digits.append_zeros {digits : Text} (h : Digits digits) (zeros : Nat) :
    Digits (List.replicate zeros '0' ++ digits) := by
  refine ⟨List.append_ne_nil_of_right_ne_nil _ h.1, List.forall_mem_append.mpr ⟨?_, h.2⟩⟩
  intro c hc
  obtain rfl := List.eq_of_mem_replicate hc
  decide

theorem number_point (n : Nat) {digits : Text} (h : Digits digits) :
    Number (Text.ofNat n ++ '.' :: digits) :=
  ⟨[], Text.ofNat n, '.' :: digits, [], by simp, whole_ofNat n, .inr ⟨digits, h, rfl⟩, .inl rfl,
    by simp⟩

-- A finite double with some places after the point.
theorem number_fixed (places mantissa : Nat) (exponent : Int) :
    Number ((Binary64.finite false mantissa exponent).fixed places) := by
  unfold Binary64.fixed
  dsimp only
  generalize roundHalfEven _ _ = units
  have hpoint := number_point (units / Nat.pow 10 places)
    ((digits_ofNat (units % Nat.pow 10 places)).append_zeros
      (places - (Text.ofNat (units % Nat.pow 10 places)).length))
  simpa [Binary64.signText] using hpoint

end

-- Not a control character other than white space.
def Visible (c : Char) : Prop := ' ' ≤ c ∨ c ∈ ['\t', '\n', '\r']

section

variable {text : Text} {units : List Nat} {c : Char} {d : Nat} {tree : Json}

theorem Blank.visible (h : Blank text) : ∀ c ∈ text, Visible c := by
  intro c hc
  rcases List.mem_cons.mp (h c hc) with rfl | hc
  · exact .inl (Nat.le_refl _)
  · exact .inr hc

theorem visible_of_isDigit (h : c.isDigit = true) : Visible c :=
  .inl (Nat.le_trans (by decide) (isDigit_range h).1)

theorem visible_of_digit (h : Digit 16 c d) : Visible c := by
  obtain ⟨hd, hc⟩ := h
  have hall : ((List.range 16).all fun d =>
      decide (' ' ≤ Nat.digitChar d) && decide (' ' ≤ (Nat.digitChar d).toUpper)) = true := by
    decide
  have hboth := List.all_eq_true.mp hall d (List.mem_range.mpr hd)
  simp only [Bool.and_eq_true, decide_eq_true_eq] at hboth
  rcases hc with rfl | rfl
  · exact .inl hboth.1
  · exact .inl hboth.2

-- The bytes of a character beyond ASCII are beyond ASCII.
theorem visible_of_mem_utf8 {byte : Char} (h : ' ' ≤ c) (hbyte : byte ∈ utf8 c) :
    Visible byte := by
  have hlow : 32 ≤ c.val.toNat := h
  obtain ⟨b, hb, rfl⟩ := List.mem_map.mp hbyte
  have hsmall : b.toNat < 256 := b.toNat_lt
  have hvalid : (Char.ofNat b.toNat).toNat = b.toNat := by
    rw [Char.ofNat, dif_pos (.inl (by omega))]
    rfl
  have hb : 32 ≤ b.toNat := by
    unfold String.utf8EncodeChar at hb
    dsimp only at hb
    split at hb
    · simp only [List.mem_singleton] at hb
      subst hb
      rw [UInt8.toNat_ofNat']
      omega
    · split at hb
      · simp only [List.mem_cons, List.not_mem_nil, or_false] at hb
        rcases hb with rfl | rfl <;> rw [UInt8.toNat_ofNat'] <;> omega
      · split at hb <;> simp only [List.mem_cons, List.not_mem_nil, or_false] at hb
        · rcases hb with rfl | rfl | rfl <;> rw [UInt8.toNat_ofNat'] <;> omega
        · rcases hb with rfl | rfl | rfl | rfl <;> rw [UInt8.toNat_ofNat'] <;> omega
  exact .inl (hvalid.symm ▸ hb : 32 ≤ (Char.ofNat b.toNat).toNat)

theorem Spells.visible (h : Spells text units) : ∀ c ∈ text, Visible c := by
  induction h with
  | nil => simp
  | plain hc _ _ _ ih =>
      intro byte hbyte
      rcases List.mem_append.mp hbyte with hbyte | hbyte
      · exact visible_of_mem_utf8 hc hbyte
      · exact ih byte hbyte
  | escape hletter _ ih =>
      have hall : (escapes.all fun pair => decide (' ' ≤ pair.1)) = true := by decide
      refine List.forall_mem_cons.mpr ⟨.inl (by decide), List.forall_mem_cons.mpr ⟨.inl ?_, ih⟩⟩
      simpa using List.all_eq_true.mp hall _ hletter
  | unit ha hb hc hd _ ih =>
      simp only [List.forall_mem_cons]
      exact ⟨.inl (by decide), .inl (by decide), visible_of_digit ha, visible_of_digit hb,
        visible_of_digit hc, visible_of_digit hd, ih⟩

theorem Number.visible (h : Number text) : ∀ c ∈ text, Visible c := by
  obtain ⟨sign, whole, fraction, exponent, hsign, hwhole, hfraction, hexponent, rfl⟩ := h
  have hdigits {digits : Text} (h : Digits digits) : ∀ c ∈ digits, Visible c :=
    fun c hc => visible_of_isDigit (h.2 c hc)
  have hsigns : ∀ sign ∈ ([[], ['+'], ['-']] : List Text), ∀ c ∈ sign, Visible c := by
    simp [Visible]
  simp only [List.forall_mem_append]
  refine ⟨⟨⟨hsigns sign ?_, hdigits hwhole.1⟩, ?_⟩, ?_⟩
  · rcases List.mem_cons.mp hsign with rfl | hsign
    · simp
    · simp [List.mem_singleton.mp hsign]
  · rcases hfraction with rfl | ⟨digits, hfraction, rfl⟩
    · simp
    · exact List.forall_mem_cons.mpr ⟨.inl (by decide), hdigits hfraction⟩
  · rcases hexponent with rfl | ⟨mark, sign, digits, hmark, hsign, hexponent, rfl⟩
    · simp
    · have hletter : ∀ mark ∈ ['e', 'E'], Visible mark := by
        simp [Visible]
      exact List.forall_mem_cons.mpr ⟨hletter mark hmark,
        List.forall_mem_append.mpr ⟨hsigns sign hsign, hdigits hexponent⟩⟩

theorem mem_joinWith {separator : Text} {parts : List Text}
    (h : c ∈ Text.joinWith separator parts) : c ∈ separator ∨ ∃ part ∈ parts, c ∈ part := by
  induction parts with
  | nil => simp [Text.joinWith, List.intercalate] at h
  | cons part rest ih =>
      cases rest with
      | nil => exact .inr ⟨part, List.mem_singleton_self _, by rwa [Text.joinWith_singleton] at h⟩
      | cons next rest =>
          rw [Text.joinWith_cons, List.mem_append, List.mem_append] at h
          rcases h with (h | h) | h
          · exact .inr ⟨part, List.mem_cons_self, h⟩
          · exact .inl h
          · rcases ih h with hc | ⟨p, hp, hc⟩
            · exact .inl hc
            · exact .inr ⟨p, List.mem_cons_of_mem _ hp, hc⟩

theorem visible_joinWith {parts : List Text} (h : ∀ part ∈ parts, ∀ c ∈ part, Visible c) :
    ∀ c ∈ Text.joinWith "," parts, Visible c := by
  intro c hc
  rcases mem_joinWith hc with hc | ⟨part, hpart, hc⟩
  · obtain rfl := List.mem_singleton.mp hc
    exact .inl (by decide)
  · exact h part hpart c hc

theorem Body.visible (h : Body text) : ∀ c ∈ text, Visible c := by
  obtain ⟨units, hspells⟩ := h
  exact hspells.visible

-- A document has no control characters other than white space.
theorem Element.visible (h : Element tree text) : ∀ c ∈ text, Visible c := by
  have hmark : ∀ mark ∈ ['"', ':', '[', ']', '\x7b', '\x7d'], Visible mark := by simp [Visible]
  simp only [List.forall_mem_cons] at hmark
  obtain ⟨hquote, hcolon, hopen, hclose, hleft, hright, -⟩ := hmark
  induction h with
  | padded hbefore _ hafter ih =>
      simp only [List.forall_mem_append]
      exact ⟨⟨hbefore.visible, ih⟩, hafter.visible⟩
  | word hword =>
      have hall : ((["true", "false", "null"] : List Text).all fun text =>
          text.all fun c => decide (' ' ≤ c)) = true := by decide
      intro c hc
      exact .inl (of_decide_eq_true
        (List.all_eq_true.mp (List.all_eq_true.mp hall _ hword) c hc))
  | number hnumber => exact hnumber.visible
  | string hbody =>
      simp only [List.cons_append, List.forall_mem_cons, List.forall_mem_append]
      exact ⟨hquote, hbody.visible, hquote, by simp⟩
  | array _ hgap ih =>
      simp only [List.cons_append, List.forall_mem_cons, List.forall_mem_append]
      exact ⟨hopen, ⟨visible_joinWith (List.forall_mem_map.mpr ih), hgap.visible⟩, hclose, by simp⟩
  | @object members _ hformed _ hgap ih =>
      have hwritten : ∀ m ∈ members, ∀ c ∈ m.written, Visible c := by
        intro m hm
        obtain ⟨hbefore, hkey, hafter⟩ := hformed m hm
        simp only [Member.written, List.forall_mem_cons, List.forall_mem_append]
        exact ⟨⟨⟨hbefore.visible, hquote, hkey.visible⟩, hquote, hafter.visible⟩, hcolon, ih m hm⟩
      simp only [List.cons_append, List.forall_mem_cons, List.forall_mem_append]
      exact ⟨hleft, ⟨visible_joinWith (List.forall_mem_map.mpr hwritten), hgap.visible⟩, hright,
        by simp⟩

end

end Json

end TypeStub
