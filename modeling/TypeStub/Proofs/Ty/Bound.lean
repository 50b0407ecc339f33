import TypeStub.Proofs.Ty.Canonical

-- Types whose type parameters are all among some names.
namespace TypeStub.Ty

def Bound (names : List Text) (type : Ty) : Prop :=
  ∀ name, parameter name ∈ type.parts → name ∈ names

section

variable {names : List Text} {base result : Ty} {types : List Ty}

@[simp] theorem bound_named (name : Text) : Bound names (named name) := by simp [Bound]

@[simp] theorem bound_anything : Bound names anything := by simp [Bound]

@[simp] theorem bound_nothing : Bound names nothing := by simp [Bound]

@[simp] theorem bound_parameter {name : Text} : Bound names (parameter name) ↔ name ∈ names := by
  simp [Bound]

theorem bound_partsAll :
    (∀ name, parameter name ∈ partsAll types → name ∈ names) ↔
      ∀ type ∈ types, Bound names type := by
  simp only [mem_partsAll, Bound]
  exact ⟨fun h type ht name hp => h name ⟨type, ht, hp⟩,
    fun h name ⟨type, ht, hp⟩ => h type ht name hp⟩

@[simp] theorem bound_generic :
    Bound names (generic base types) ↔ Bound names base ∧ ∀ type ∈ types, Bound names type := by
  rw [← bound_partsAll]
  simp [Bound, or_imp, forall_and]

@[simp] theorem bound_tuple :
    Bound names (tuple base types) ↔ Bound names base ∧ ∀ type ∈ types, Bound names type := by
  rw [← bound_partsAll]
  simp [Bound, or_imp, forall_and]

@[simp] theorem bound_callable :
    Bound names (callable base types result) ↔
      Bound names base ∧ (∀ type ∈ types, Bound names type) ∧ Bound names result := by
  rw [← bound_partsAll]
  simp [Bound, or_imp, forall_and]

@[simp] theorem bound_union :
    Bound names (union types) ↔ ∀ type ∈ types, Bound names type := by
  rw [← bound_partsAll]
  simp [Bound]

-- The parts of a union are parts of its members.
theorem bound_unionOf (h : ∀ type ∈ types, Bound names type) : Bound names (unionOf types) := by
  have hleaf : ∀ leaf ∈ leavesAll types, Bound names leaf := fun leaf hl name hp =>
    bound_partsAll.mpr h name (parts_of_mem_leavesAll types hl hp)
  rcases unionOf_cases types with he | ⟨leaf, hl, he⟩ | ⟨members, he, -, -, hm⟩ <;> rw [he]
  · exact bound_nothing
  · exact hleaf leaf hl
  · exact bound_union.mpr fun member hin => hleaf member (hm member hin)

end

mutual

-- Other names for its classes leave a type its parameters.
theorem bound_mapNames {names : List Text} (f : Text → Text) :
    ∀ type : Ty, Bound names (type.mapNames f) ↔ Bound names type
  | named _ | anything | nothing | parameter _ => by simp [mapNames]
  | generic base params => by
      simp only [mapNames, bound_generic, bound_mapNames f base, bound_mapNamesAll f params]
  | tuple base params => by
      simp only [mapNames, bound_tuple, bound_mapNames f base, bound_mapNamesAll f params]
  | callable base args result => by
      simp only [mapNames, bound_callable, bound_mapNames f base, bound_mapNamesAll f args,
        bound_mapNames f result]
  | union members => by
      simp only [mapNames, bound_union, bound_mapNamesAll f members]

theorem bound_mapNamesAll {names : List Text} (f : Text → Text) : ∀ types : List Ty,
    (∀ type ∈ mapNamesAll f types, Bound names type) ↔ ∀ type ∈ types, Bound names type
  | [] => by simp [mapNamesAll]
  | type :: rest => by
      simp only [mapNamesAll, List.forall_mem_cons, bound_mapNames f type,
        bound_mapNamesAll f rest]

end

end TypeStub.Ty
