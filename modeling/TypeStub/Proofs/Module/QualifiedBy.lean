import Mathlib.Data.Option.Defs
import TypeStub.Proofs.Ensures
import TypeStub.Qualify

-- What it means that a module's names are qualified, place by place.
namespace TypeStub

-- A type in which these classes go by their qualified names, at any depth. All else stays.
inductive Ty.QualifiedBy (module : Text) (classes : List Text) : Ty → Ty → Prop
  | inside {name : Text} : name ∈ classes →
      QualifiedBy module classes (.named name) (.named (module ++ '.' :: name))
  | outside {name : Text} : name ∉ classes → QualifiedBy module classes (.named name) (.named name)
  | anything : QualifiedBy module classes .anything .anything
  | nothing : QualifiedBy module classes .nothing .nothing
  | parameter {name : Text} : QualifiedBy module classes (.parameter name) (.parameter name)
  | generic {base base' : Ty} {params params' : List Ty} : QualifiedBy module classes base base' →
      List.Forall₂ (QualifiedBy module classes) params params' →
      QualifiedBy module classes (.generic base params) (.generic base' params')
  | tuple {base base' : Ty} {params params' : List Ty} : QualifiedBy module classes base base' →
      List.Forall₂ (QualifiedBy module classes) params params' →
      QualifiedBy module classes (.tuple base params) (.tuple base' params')
  | callable {base base' : Ty} {args args' : List Ty} {result result' : Ty} :
      QualifiedBy module classes base base' →
      List.Forall₂ (QualifiedBy module classes) args args' →
      QualifiedBy module classes result result' →
      QualifiedBy module classes (.callable base args result) (.callable base' args' result')
  | union {members members' : List Ty} :
      List.Forall₂ (QualifiedBy module classes) members members' →
      QualifiedBy module classes (.union members) (.union members')

-- The parts of a module under a change of types and, where a declaration has a name of its own, a
-- change of names.
section Parts

variable (R : Ty → Ty → Prop) (rename : Text → Text)

@[mk_iff] structure Parameter.Changed (p q : Parameter) : Prop where
  name : q.name = p.name
  type : R p.type q.type
  isOptional : q.isOptional = p.isOptional
  keywordOnly : q.keywordOnly = p.keywordOnly

@[mk_iff] structure Mutator.Changed (m n : Mutator) : Prop where
  name : n.name = m.name
  type : R m.type n.type

@[mk_iff] structure Signature.Changed (s t : Signature) : Prop where
  params : List.Forall₂ (Parameter.Changed R) s.params t.params
  starArgs : Option.Rel (Parameter.Changed R) s.starArgs t.starArgs
  starStarArgs : Option.Rel (Parameter.Changed R) s.starStarArgs t.starStarArgs
  returns : R s.returns t.returns
  exceptions : List.Forall₂ R s.exceptions t.exceptions
  mutators : List.Forall₂ (Mutator.Changed R) s.mutators t.mutators

@[mk_iff] structure StubFunction.Changed (f g : StubFunction) : Prop where
  name : g.name = rename f.name
  signatures : List.Forall₂ (Signature.Changed R) f.signatures g.signatures
  kind : g.kind = f.kind
  isExternal : g.isExternal = f.isExternal

@[mk_iff] structure Constant.Changed (c d : Constant) : Prop where
  name : d.name = rename c.name
  type : R c.type d.type

@[mk_iff] structure Alias.Changed (a b : Alias) : Prop where
  name : b.name = rename a.name
  target : R a.target b.target

@[mk_iff] structure TypeVariable.Changed (v w : TypeVariable) : Prop where
  name : w.name = rename v.name
  constraints : List.Forall₂ R v.constraints w.constraints

-- The members of a class keep their names.
@[mk_iff] structure StubClass.Changed (c d : StubClass) : Prop where
  name : d.name = rename c.name
  parents : List.Forall₂ R c.parents d.parents
  metaclass : Option.Rel R c.metaclass d.metaclass
  constants : List.Forall₂ (Constant.Changed R id) c.constants d.constants
  methods : List.Forall₂ (StubFunction.Changed R id) c.methods d.methods

@[mk_iff] structure StubModule.Changed (m n : StubModule) : Prop where
  aliases : List.Forall₂ (Alias.Changed R rename) m.aliases n.aliases
  constants : List.Forall₂ (Constant.Changed R rename) m.constants n.constants
  typeVariables : List.Forall₂ (TypeVariable.Changed R rename) m.typeVariables n.typeVariables
  classes : List.Forall₂ (StubClass.Changed R rename) m.classes n.classes
  functions : List.Forall₂ (StubFunction.Changed R rename) m.functions n.functions

end Parts

-- A module under an explicit name: its declarations go by qualified names, and so does every mention
-- of one of its classes.
@[mk_iff] structure StubModule.QualifiedBy (module : Text) (m n : StubModule) : Prop where
  name : n.name = module
  contents : m.Changed (Ty.QualifiedBy module (m.classes.map (·.name))) (module ++ '.' :: ·) n

theorem optionRel_iff_eq_map {α β : Type} {R : α → β → Prop} {f : α → β}
    (h : ∀ a b, R a b ↔ b = f a) {a : Option α} {b : Option β} :
    Option.Rel R a b ↔ b = a.map f := by
  cases a <;> cases b <;> simp [h]

namespace Qualify

mutual

theorem type_iff {module : Text} {classes : List Text} :
    ∀ type type' : Ty, Ty.QualifiedBy module classes type type' ↔
      type' = type.mapNames (className module classes)
  | .named name, type' => by
      simp only [Ty.mapNames, className, List.contains_iff_mem]
      constructor
      · rintro (hin | hout)
        · rw [if_pos ‹_›]
          rfl
        · rw [if_neg ‹_›]
      · rintro rfl
        split
        · exact .inside ‹_›
        · exact .outside ‹_›
  | .anything, type' => ⟨by rintro ⟨⟩; rfl, by rintro rfl; exact .anything⟩
  | .nothing, type' => ⟨by rintro ⟨⟩; rfl, by rintro rfl; exact .nothing⟩
  | .parameter name, type' => ⟨by rintro ⟨⟩; rfl, by rintro rfl; exact .parameter⟩
  | .generic base params, type' => by
      constructor
      · rintro ⟨⟩
        rename_i hb hp
        rw [Ty.mapNames, ← (type_iff ..).mp hb, ← types_iff.mp hp]
      · rintro rfl
        exact .generic ((type_iff ..).mpr rfl) (types_iff.mpr rfl)
  | .tuple base params, type' => by
      constructor
      · rintro ⟨⟩
        rename_i hb hp
        rw [Ty.mapNames, ← (type_iff ..).mp hb, ← types_iff.mp hp]
      · rintro rfl
        exact .tuple ((type_iff ..).mpr rfl) (types_iff.mpr rfl)
  | .callable base args result, type' => by
      constructor
      · rintro ⟨⟩
        rename_i hb ha hr
        rw [Ty.mapNames, ← (type_iff ..).mp hb, ← types_iff.mp ha, ← (type_iff ..).mp hr]
      · rintro rfl
        exact .callable ((type_iff ..).mpr rfl) (types_iff.mpr rfl) ((type_iff ..).mpr rfl)
  | .union members, type' => by
      constructor
      · rintro ⟨⟩
        rename_i hm
        rw [Ty.mapNames, ← types_iff.mp hm]
      · rintro rfl
        exact .union (types_iff.mpr rfl)

theorem types_iff {module : Text} {classes : List Text} :
    ∀ {types types' : List Ty}, List.Forall₂ (Ty.QualifiedBy module classes) types types' ↔
      types' = Ty.mapNamesAll (className module classes) types
  | [], types' => by simp [Ty.mapNamesAll]
  | type :: rest, types' => by
      cases types' with
      | nil => simp [Ty.mapNamesAll]
      | cons type' rest' =>
          rw [List.forall₂_cons, Ty.mapNamesAll, List.cons.injEq]
          exact and_congr (type_iff ..) types_iff

end

attribute [ext] Parameter Mutator Signature StubFunction Constant Alias TypeVariable StubClass
  StubModule

section Parts

variable {R : Ty → Ty → Prop} {f rename : Text → Text}
variable (hR : ∀ type type', R type type' ↔ type' = type.mapNames f)
include hR

theorem parameter_iff (p q : Parameter) : p.Changed R q ↔ q = parameter f p := by
  rw [Parameter.changed_iff, hR, Parameter.ext_iff, parameter]

theorem mutator_iff (m n : Mutator) :
    m.Changed R n ↔ n = { m with type := m.type.mapNames f } := by
  rw [Mutator.changed_iff, hR, Mutator.ext_iff]

theorem signature_iff (s t : Signature) : s.Changed R t ↔ t = signature f s := by
  rw [Signature.changed_iff, forall₂_iff_eq_map (parameter_iff hR),
    optionRel_iff_eq_map (parameter_iff hR), optionRel_iff_eq_map (parameter_iff hR), hR,
    forall₂_iff_eq_map hR, forall₂_iff_eq_map (mutator_iff hR), Signature.ext_iff, signature]

theorem function_iff (fn gn : StubFunction) :
    fn.Changed R rename gn ↔ gn = { function f fn with name := rename fn.name } := by
  rw [StubFunction.changed_iff, forall₂_iff_eq_map (signature_iff hR), StubFunction.ext_iff,
    function]

theorem constant_iff (c d : Constant) :
    c.Changed R rename d ↔ d = ⟨rename c.name, c.type.mapNames f⟩ := by
  rw [Constant.changed_iff, hR, Constant.ext_iff]

theorem alias_iff (a b : Alias) :
    a.Changed R rename b ↔ b = ⟨rename a.name, a.target.mapNames f⟩ := by
  rw [Alias.changed_iff, hR, Alias.ext_iff]

theorem typeVariable_iff (v w : TypeVariable) :
    v.Changed R rename w ↔ w = ⟨rename v.name, v.constraints.map (Ty.mapNames f)⟩ := by
  rw [TypeVariable.changed_iff, forall₂_iff_eq_map hR, TypeVariable.ext_iff]

theorem stubClass_iff (c d : StubClass) :
    c.Changed R rename d ↔ d = { stubClass f c with name := rename c.name } := by
  rw [StubClass.changed_iff, forall₂_iff_eq_map hR, optionRel_iff_eq_map hR,
    forall₂_iff_eq_map (constant_iff hR), forall₂_iff_eq_map (function_iff hR),
    StubClass.ext_iff, stubClass]
  rfl

end Parts

-- The module under an explicit name is determined by the module without one.
theorem module_iff (name : Text) (m n : StubModule) :
    m.QualifiedBy name n ↔ n = Qualify.module name { m with name := name } := by
  have hR := @type_iff name (m.classes.map (·.name))
  rw [StubModule.qualifiedBy_iff, StubModule.changed_iff, forall₂_iff_eq_map (alias_iff hR),
    forall₂_iff_eq_map (constant_iff hR), forall₂_iff_eq_map (typeVariable_iff hR),
    forall₂_iff_eq_map (stubClass_iff hR), forall₂_iff_eq_map (function_iff hR),
    StubModule.ext_iff]
  rfl

end Qualify

end TypeStub
