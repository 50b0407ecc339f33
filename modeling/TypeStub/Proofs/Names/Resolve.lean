import TypeStub.Names

-- What a name stands for, by what the stub declares.
namespace TypeStub

-- The names that stand for something by themselves, wherever they are written.
def fixedNames : List Text := ["nothing", "None", "NoneType"]

namespace Names

-- What a name stands for that the stub does not declare: a built-in, an import, or itself.
def elsewhere (names : Names) (name : Text) : Ty :=
  match names.builtin? name with
  | some builtin => builtin.type
  | none => (names.imported? name).getD (.named name)

variable {names : Names} {name : Text}

-- Any other name is looked up among the type variables, then among the classes, and then elsewhere.
theorem resolve_of_not_fixed (hf : name ∉ fixedNames) :
    names.resolve name =
      if names.isTypeVar name then .parameter name
      else if names.isClass name then .named name
      else names.elsewhere name := by
  simp only [fixedNames, List.mem_cons, List.not_mem_nil, or_false, not_or] at hf
  rw [resolve, if_neg hf.1, if_neg (not_or.mpr hf.2)]
  rfl

theorem resolve_variable (hf : name ∉ fixedNames) (hv : names.isTypeVar name = true) :
    names.resolve name = .parameter name := by
  rw [resolve_of_not_fixed hf, if_pos hv]

theorem resolve_class (hf : name ∉ fixedNames) (hv : names.isTypeVar name = false)
    (hc : names.isClass name = true) : names.resolve name = .named name := by
  rw [resolve_of_not_fixed hf, hv, if_neg (by simp), if_pos hc]

theorem resolve_undeclared (hf : name ∉ fixedNames) (hv : names.isTypeVar name = false)
    (hc : names.isClass name = false) : names.resolve name = names.elsewhere name := by
  rw [resolve_of_not_fixed hf, hv, hc]
  rfl

-- A name that the stub does not declare stands for the same in the stub without its declarations.
theorem resolve_without (hv : names.isTypeVar name = false) (hc : names.isClass name = false) :
    names.resolve name =
      ({ names with classes := [], typeVars := [] } : Names).resolve name := by
  rw [resolve, hv, hc]
  rfl

theorem elsewhere_of_builtin {builtin : Builtin} (h : names.builtin? name = some builtin) :
    names.elsewhere name = builtin.type := by
  rw [elsewhere, h]

-- A name stands for the type variable of that name, or for nothing, anything or a named type.
theorem resolve_cases (names : Names) (id : Text) :
    names.isTypeVar id = true ∧ names.resolve id = .parameter id ∨ names.resolve id = .nothing ∨
      names.resolve id = .anything ∨ ∃ name, names.resolve id = .named name := by
  have hbuiltin : ∀ builtin : Builtin, builtin.type = .nothing ∨ builtin.type = .anything ∨
      ∃ name, builtin.type = .named name := by
    intro builtin
    cases builtin with
    | anything => exact .inr (.inl rfl)
    | named name => exact .inr (.inr ⟨name, rfl⟩)
  unfold resolve
  split
  · exact .inr (.inl rfl)
  split
  · exact .inr (.inr (.inr ⟨_, rfl⟩))
  split
  · exact .inl ⟨by assumption, rfl⟩
  split
  · exact .inr (.inr (.inr ⟨_, rfl⟩))
  split
  · exact .inr (hbuiltin _)
  · unfold imported?
    cases names.imports.lookup id with
    | none => exact .inr (.inr (.inr ⟨_, rfl⟩))
    | some target =>
        simp only [Option.map_some, Option.getD_some]
        split
        · cases Builtin.ofTyping? target with
          | none => exact .inr (.inr (.inr ⟨_, rfl⟩))
          | some builtin => exact .inr (hbuiltin builtin)
        · exact .inr (.inr (.inr ⟨_, rfl⟩))

end Names

end TypeStub
