import TypeStub.Proofs.Ty.Union

namespace TypeStub.Ty

mutual

-- A type and all types inside it.
def parts : Ty → List Ty
  | named name => [named name]
  | anything => [anything]
  | nothing => [nothing]
  | parameter name => [parameter name]
  | generic base params => generic base params :: (parts base ++ partsAll params)
  | tuple base params => tuple base params :: (parts base ++ partsAll params)
  | callable base args result =>
      callable base args result :: (parts base ++ partsAll args ++ parts result)
  | union members => union members :: partsAll members

def partsAll : List Ty → List Ty
  | [] => []
  | type :: rest => parts type ++ partsAll rest

end

attribute [simp] parts partsAll

-- A type that is not made of others.
def IsAtom : Ty → Prop
  | named _ | anything | nothing | parameter _ => True
  | _ => False

-- What is asked of one node of a canonical type.
def IsNormal : Ty → Prop
  | named name => name ≠ "typing.Union" ∧ name ≠ "typing.Optional"
  | anything | nothing | parameter _ => True
  | generic base params =>
      base.IsAtom ∧ params ≠ [] ∧ (base = named "tuple" → params.length = 1) ∧
        (base = named "typing.Callable" → ∃ result, params = [anything, result])
  | tuple base params => base = named "tuple" ∧ params ≠ []
  | callable base _ _ => base = named "typing.Callable"
  | union members =>
      2 ≤ members.length ∧ (∀ member ∈ members, member.kind ≠ .union ∧ member.kind ≠ .nothing) ∧
        members.Pairwise fun a b => same a b = false

def Canonical (type : Ty) : Prop := ∀ part ∈ type.parts, part.IsNormal

theorem mem_partsAll {types : List Ty} {part : Ty} :
    part ∈ partsAll types ↔ ∃ type ∈ types, part ∈ type.parts := by
  induction types with
  | nil => simp [partsAll]
  | cons type rest ih => simp [partsAll, ih]

theorem mem_parts_self (type : Ty) : type ∈ type.parts := by
  cases type <;> simp [parts]

theorem Canonical.normal {type : Ty} (h : type.Canonical) : type.IsNormal :=
  h type type.mem_parts_self

theorem canonical_of_partsAll {types : List Ty} (h : ∀ part ∈ partsAll types, part.IsNormal) :
    ∀ type ∈ types, type.Canonical := fun type ht part hp =>
  h part (mem_partsAll.mpr ⟨type, ht, hp⟩)

theorem Canonical.of_generic {base : Ty} {params : List Ty} (h : (generic base params).Canonical) :
    ∀ type ∈ params, type.Canonical :=
  canonical_of_partsAll fun part hp => h part (by simp [parts, hp])

theorem Canonical.of_generic_base {base : Ty} {params : List Ty}
    (h : (generic base params).Canonical) : base.Canonical :=
  fun part hp => h part (by simp [parts, hp])

theorem Canonical.of_tuple {base : Ty} {params : List Ty} (h : (tuple base params).Canonical) :
    ∀ type ∈ params, type.Canonical :=
  canonical_of_partsAll fun part hp => h part (by simp [parts, hp])

theorem Canonical.of_tuple_base {base : Ty} {params : List Ty}
    (h : (tuple base params).Canonical) : base.Canonical :=
  fun part hp => h part (by simp [parts, hp])

theorem Canonical.of_callable {base result : Ty} {args : List Ty}
    (h : (callable base args result).Canonical) :
    (∀ type ∈ args, type.Canonical) ∧ result.Canonical :=
  ⟨canonical_of_partsAll fun part hp => h part (by simp [parts, hp]),
    fun part hp => h part (by simp [parts, hp])⟩

theorem Canonical.of_union {members : List Ty} (h : (union members).Canonical) :
    ∀ type ∈ members, type.Canonical :=
  canonical_of_partsAll fun part hp => h part (by simp [parts, hp])

theorem canonical_named (name : Text) (hu : name ≠ "typing.Union") (ho : name ≠ "typing.Optional") :
    (named name).Canonical := by
  simpa [Canonical, parts] using ⟨hu, ho⟩

theorem canonical_anything : anything.Canonical := by simp [Canonical, parts, IsNormal]

theorem canonical_nothing : nothing.Canonical := by simp [Canonical, parts, IsNormal]

theorem canonical_generic {base : Ty} {params : List Ty} (hn : (generic base params).IsNormal)
    (hb : base.Canonical) (hp : ∀ type ∈ params, type.Canonical) :
    (generic base params).Canonical := by
  intro part hm
  simp only [parts, List.mem_cons, List.mem_append, mem_partsAll] at hm
  rcases hm with rfl | hm | ⟨type, ht, hm⟩
  · exact hn
  · exact hb part hm
  · exact hp type ht part hm

theorem canonical_tuple {params : List Ty} (hne : params ≠ [])
    (hp : ∀ type ∈ params, type.Canonical) : (tuple (named "tuple") params).Canonical := by
  intro part hm
  simp only [parts, List.mem_cons, List.mem_append, mem_partsAll] at hm
  rcases hm with rfl | (rfl | hm) | ⟨type, ht, hm⟩
  · exact ⟨rfl, hne⟩
  · exact ⟨by decide, by decide⟩
  · simp at hm
  · exact hp type ht part hm

theorem canonical_callable {args : List Ty} {result : Ty}
    (ha : ∀ type ∈ args, type.Canonical) (hr : result.Canonical) :
    (callable (named "typing.Callable") args result).Canonical := by
  intro part hm
  simp only [parts, List.mem_cons, List.mem_append, mem_partsAll] at hm
  rcases hm with rfl | ((rfl | hm) | ⟨type, ht, hm⟩) | hm
  · rfl
  · exact ⟨by decide, by decide⟩
  · simp at hm
  · exact ha type ht part hm
  · exact hr part hm

-- The list `[T]` is the type `Tuple[T, ...]`.
theorem canonical_tupleOf {type : Ty} (h : type.Canonical) :
    (generic (named "tuple") [type]).Canonical := by
  refine canonical_generic ⟨trivial, by simp, fun _ => rfl, fun he => ?_⟩ ?_ (by simpa using h)
  · exact absurd (named.inj he) (by decide)
  · exact canonical_named _ (by decide) (by decide)

mutual

theorem parts_of_mem_leaves : ∀ (type : Ty) {leaf part : Ty}, leaf ∈ leaves type →
    part ∈ leaf.parts → part ∈ type.parts
  | union members, _, _, hl, hp => by
      simp only [leaves] at hl
      exact List.mem_cons_of_mem _ (parts_of_mem_leavesAll members hl hp)
  | nothing, _, _, hl, _ => by simp [leaves] at hl
  | named _, _, _, hl, hp | anything, _, _, hl, hp | parameter _, _, _, hl, hp
  | generic _ _, _, _, hl, hp | tuple _ _, _, _, hl, hp | callable _ _ _, _, _, hl, hp => by
      simp only [leaves, List.mem_singleton] at hl
      exact hl ▸ hp

theorem parts_of_mem_leavesAll : ∀ (types : List Ty) {leaf part : Ty}, leaf ∈ leavesAll types →
    part ∈ leaf.parts → part ∈ partsAll types
  | [], _, _, hl, _ => by simp [leavesAll] at hl
  | type :: rest, _, _, hl, hp => by
      simp only [leavesAll, List.mem_append] at hl
      rw [partsAll, List.mem_append]
      exact hl.imp (parts_of_mem_leaves type · hp) (parts_of_mem_leavesAll rest · hp)

end

theorem canonical_of_mem_leavesAll {types : List Ty} (h : ∀ type ∈ types, type.Canonical)
    {leaf : Ty} (hl : leaf ∈ leavesAll types) : leaf.Canonical := by
  intro part hp
  obtain ⟨type, ht, hm⟩ := mem_partsAll.mp (parts_of_mem_leavesAll types hl hp)
  exact h type ht part hm

theorem canonical_unionOf {types : List Ty} (h : ∀ type ∈ types, type.Canonical) :
    (unionOf types).Canonical := by
  rcases unionOf_cases types with he | ⟨leaf, hl, he⟩ | ⟨members, he, hlen, hn, hm⟩ <;> rw [he]
  · exact canonical_nothing
  · exact canonical_of_mem_leavesAll h hl
  · intro part hp
    simp only [parts, List.mem_cons, mem_partsAll] at hp
    rcases hp with rfl | ⟨member, hin, hp⟩
    · refine ⟨hlen, fun member hin => isLeaf_of_mem_leavesAll types (hm member hin), ?_⟩
      refine hn.imp fun hne => ?_
      rw [Bool.eq_false_iff, ne_eq, same_iff]
      exact hne
    · exact canonical_of_mem_leavesAll h (hm member hin) part hp

end TypeStub.Ty
