import TypeStub.Proofs.Load.Outcome
import TypeStub.Proofs.Names.Resolve
import TypeStub.Proofs.Ty.Canonical

namespace TypeStub

open Ty

theorem Names.isAtom_resolve (names : Names) (id : Text) : (names.resolve id).IsAtom := by
  rcases names.resolve_cases id with ⟨-, h⟩ | h | h | ⟨name, h⟩ <;> rw [h] <;> trivial

theorem Ty.canonical_atom {type : Ty} (ha : type.IsAtom)
    (hu : type.isNamed "typing.Union" = false) (ho : type.isNamed "typing.Optional" = false) :
    type.Canonical := by
  cases type with
  | named name =>
      refine canonical_named _ (fun h => ?_) fun h => ?_
      · simp [isNamed, h] at hu
      · simp [isNamed, h] at ho
  | anything => exact canonical_anything
  | nothing => exact canonical_nothing
  | parameter name => simp [Canonical, parts, IsNormal]
  | _ => exact ha.elim

theorem Records.canonical_className (records : Records) (name : Text) :
    (Ty.named (records.className name)).Canonical := by
  have hne : ∀ text : Text, text.head? = some 't' → records.className name ≠ text := by
    intro text ht he
    rw [← he] at ht
    unfold className at ht
    split at ht <;> simp at ht
  exact canonical_named _ (hne _ rfl) (hne _ rfl)

namespace Convert

theorem canonical_plainBase {names : Names} {base : Ty} (hb : IsPlainBase names base) :
    base.IsAtom ∧ base ≠ .named "typing.Callable" ∧ base.Canonical := by
  rcases hb with rfl | ⟨id, rfl, hc, hu, ho⟩
  · refine ⟨trivial, fun h => absurd (named.inj h) (by decide), ?_⟩
    exact canonical_named _ (by decide) (by decide)
  · refine ⟨names.isAtom_resolve id, fun h => ?_, ?_⟩
    · rw [isNamed_iff.mpr h] at hc
      exact absurd hc (by decide)
    · exact canonical_atom (names.isAtom_resolve id) hu ho

theorem canonical_parametrized {names : Names} {base : Ty} {elements : List Expr}
    {params : List Ty} (hb : IsPlainBase names base) (he : elements ≠ [])
    (hl : params.length = elements.length) (hp : ∀ type ∈ params, type.Canonical) :
    (parametrized base elements params).Canonical := by
  obtain ⟨ha, hc, hcan⟩ := canonical_plainBase hb
  have hpos : 0 < params.length := hl ▸ List.length_pos_iff.mpr he
  unfold parametrized
  split
  · refine canonical_generic ⟨ha, ?_, fun _ => ?_, fun h => absurd h hc⟩ hcan ?_
    · exact List.length_pos_iff.mp (by simp only [List.length_take]; omega)
    · simp only [List.length_take]; omega
    · exact fun type hm => hp type (List.mem_of_mem_take hm)
  split
  · rename_i ht
    obtain rfl := isNamed_iff.mp ht
    exact canonical_tuple (List.length_pos_iff.mp hpos) hp
  · rename_i ht
    refine canonical_generic ⟨ha, List.length_pos_iff.mp hpos, fun h => ?_, fun h => absurd h hc⟩
      hcan hp
    exact absurd (isNamed_iff.mpr h) ht

theorem closed_canonical (names : Names) : Closed names Canonical where
  anything := canonical_anything
  bare id hu ho := canonical_atom (names.isAtom_resolve id) hu ho
  none := canonical_named _ (by decide) (by decide)
  union types h := canonical_unionOf h
  noFields := canonical_tupleOf canonical_nothing
  tuple types hne h := canonical_tuple hne h
  parametrized base elements params hb he hl hp := canonical_parametrized hb he hl hp
  openCallable base result hb hr := by
    obtain rfl := isNamed_iff.mp hb
    refine canonical_generic ⟨trivial, by simp, fun h => absurd (named.inj h) (by decide),
      fun _ => ⟨result, rfl⟩⟩ (canonical_named _ (by decide) (by decide)) ?_
    simpa using ⟨canonical_anything, hr⟩
  callable base args result hb ha hr := by
    obtain rfl := isNamed_iff.mp hb
    exact canonical_callable ha hr
  record := Records.canonical_className

end Convert

-- Only the typing module itself has a member whose qualified name is one of its names.
theorem qualified_ne_typing {module name : Text} (word : Text) (hd : '.' ∉ word)
    (hm : module ≠ "typing") :
    module ++ '.' :: name ≠ "typing." ++ word := by
  intro h
  have hcount := congrArg (List.count '.') h
  have hw : word.count '.' = 0 := List.count_eq_zero_of_not_mem hd
  have ht : ("typing." : Text).count '.' = 1 := by decide
  rw [List.count_append, List.count_append, List.count_cons_self, hw, ht] at hcount
  have hmod : '.' ∉ module := List.count_eq_zero.mp (by omega)
  have hsplit := congrArg (List.takeWhile (· != '.')) h
  rw [List.takeWhile_append_of_pos (by
    intro c hc
    simp only [bne_iff_ne, ne_eq]
    rintro rfl
    exact hmod hc)] at hsplit
  exact hm (by simpa using hsplit)

theorem Build.kept_canonical : Kept (fun _ => True) Canonical where
  converted names _ := Convert.closed_canonical names
  imported := fun _ _ _ _ _ _ _ => trivial
  member module name _ _ hm := canonical_named _
    (qualified_ne_typing "Union" (by decide) hm)
    (qualified_ne_typing "Optional" (by decide) hm)
  plain name hn := by
    refine canonical_named _ ?_ ?_ <;> rintro rfl <;> revert hn <;> decide
  anything := canonical_anything
  optional type h := canonical_unionOf (by
    simpa using ⟨h, canonical_named "NoneType" (by decide) (by decide)⟩)
  starred type h := canonical_tupleOf h
  keyed type h := by
    refine canonical_generic ⟨trivial, by simp, fun he => absurd (named.inj he) (by decide),
      fun he => absurd (named.inj he) (by decide)⟩ (canonical_named _ (by decide) (by decide)) ?_
    simpa using ⟨canonical_named "str" (by decide) (by decide), h⟩

namespace Load

-- Every type inside every type of an accepted source is in normal form.
theorem load_canonical (digest : Hasher) (target : Target) (filename : Option Text) (source : Text)
    (m : StubModule) (h : load digest ⟨none, target, filename⟩ source = .ok m) :
    ∀ type ∈ m.types, ∀ part ∈ type.parts, part.IsNormal := by
  obtain ⟨name, body, built, -, hp, hb, -, rfl⟩ := load_ok h
  exact (shaped_load Build.kept_canonical (fun _ _ => trivial) hp hb).types

-- A default of None makes a union, whose members are types of the module too.
theorem load_canonical_default :
    ∃ m, load Digest.md5 ⟨none, .standard, none⟩ "def f(x: List[int] = None): ...\n" = .ok m ∧
      ∃ type ∈ m.types, type = union [generic (named "list") [named "int"], named "NoneType"] ∧
        generic (named "list") [named "int"] ∈ type.parts ∧ type.IsNormal ∧
        (generic (named "list") [named "int"]).IsNormal := by
  have hrun : (load Digest.md5 ⟨none, .standard, none⟩
      "def f(x: List[int] = None): ...\n").toOption.any (fun m => m.types.any
        (same (union [generic (named "list") [named "int"], named "NoneType"]))) = true := by
    decide +kernel
  obtain ⟨m, hm, hrun⟩ := (Option.any_eq_true _ _).mp hrun
  have hm := ok_of_toOption hm
  obtain ⟨type, ht, hs⟩ := List.any_eq_true.mp hrun
  obtain rfl := (same_iff _ _).mp hs
  have hn := load_canonical Digest.md5 .standard none _ m hm _ ht
  exact ⟨m, hm, _, ht, rfl, by simp [parts, partsAll], hn _ (by simp [parts]),
    hn _ (by simp [parts, partsAll])⟩

end Load

end TypeStub
