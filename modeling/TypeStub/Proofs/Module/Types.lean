import TypeStub.Proofs.Token.Identifier
import TypeStub.Proofs.Ty.Union
import TypeStub.Qualify

namespace TypeStub

deriving instance DecidableEq for Parameter, Mutator, Signature, StubFunction, Constant, Alias,
  TypeVariable, StubClass, StubModule

-- The types written in a signature, each at its place.
def Signature.types (s : Signature) : List Ty :=
  s.params.map (·.type) ++ s.starArgs.toList.map (·.type) ++ s.starStarArgs.toList.map (·.type) ++
    [s.returns] ++ s.exceptions ++ s.mutators.map (·.type)

def StubFunction.types (f : StubFunction) : List Ty := f.signatures.flatMap Signature.types

def StubClass.types (c : StubClass) : List Ty :=
  c.parents ++ c.metaclass.toList ++ c.constants.map (·.type) ++ c.methods.flatMap StubFunction.types

-- Every type that stands somewhere in a module.
def StubModule.types (m : StubModule) : List Ty :=
  m.aliases.map (·.target) ++ m.constants.map (·.type) ++ m.typeVariables.flatMap (·.constraints) ++
    m.classes.flatMap StubClass.types ++ m.functions.flatMap StubFunction.types

-- The types of a module whose names were qualified.
namespace Qualify

variable (f : Text → Text)

theorem types_signature (s : Signature) :
    (signature f s).types = s.types.map (Ty.mapNames f) := by
  cases hs : s.starArgs <;> cases hd : s.starStarArgs <;>
    simp [signature, Signature.types, parameter, Function.comp_def, hs, hd]

theorem types_function (fn : StubFunction) :
    (function f fn).types = fn.types.map (Ty.mapNames f) := by
  simp [function, StubFunction.types, List.flatMap_map, List.map_flatMap, types_signature]

theorem types_stubClass (c : StubClass) :
    (stubClass f c).types = c.types.map (Ty.mapNames f) := by
  cases hm : c.metaclass <;>
    simp [stubClass, StubClass.types, constant, List.flatMap_map, List.map_flatMap, types_function,
      Function.comp_def, hm]

-- Every type of the module stays in its place, with the names of the classes qualified.
theorem types_module (name : Text) (m : StubModule) :
    (Qualify.module name m).types =
      m.types.map (Ty.mapNames (className name (m.classes.map (·.name)))) := by
  have hclass : ∀ c : StubClass, StubClass.types
      { stubClass (className name (m.classes.map (·.name))) c with name := qualified name c.name } =
        c.types.map (Ty.mapNames (className name (m.classes.map (·.name)))) :=
    types_stubClass _
  have hfunction : ∀ fn : StubFunction, StubFunction.types
      { function (className name (m.classes.map (·.name))) fn with
        name := qualified name fn.name } =
        fn.types.map (Ty.mapNames (className name (m.classes.map (·.name)))) :=
    types_function _
  simp [Qualify.module, StubModule.types, List.flatMap_map, List.map_flatMap, hclass, hfunction,
    Function.comp_def]

end Qualify

-- The type of `*args` or `**kwargs`: a container, plain or of one type in its last place.
def IsStarType (container : Text) (given : List Ty) (type : Ty) : Prop :=
  type = .named container ∨ ∃ element, type = .generic (.named container) (given ++ [element])

def Parameter.IsStar (container : Text) (given : List Ty) (p : Parameter) : Prop :=
  Identifier p.name ∧ p.isOptional = false ∧ p.keywordOnly = false ∧
    IsStarType container given p.type

-- How the parts of a signature fit together: the keyword-only parameters come last, the star
-- parameters have container types, and only parameters are mutated.
structure Signature.Shaped (s : Signature) : Prop where
  names : ∀ p ∈ s.params, Identifier p.name
  keywordsLast : ∃ plain others, s.params = plain ++ others ∧
    (∀ p ∈ plain, p.keywordOnly = false) ∧ ∀ p ∈ others, p.keywordOnly = true
  star : ∀ p ∈ s.starArgs, p.IsStar "tuple" []
  doubleStar : ∀ p ∈ s.starStarArgs, p.IsStar "dict" [.named "str"]
  mutated : ∀ m ∈ s.mutators, ∃ p ∈ s.params ++ s.starArgs.toList ++ s.starStarArgs.toList,
    p.name = m.name

-- An external function has native code for its signatures; any other has at least one.
structure StubFunction.Shaped (f : StubFunction) : Prop where
  name : Identifier f.name
  native : f.isExternal = true → f.signatures = [] ∧ f.kind = .method
  overloads : f.isExternal = false → f.signatures ≠ []
  allocator : f.isExternal = false → f.name = "__new__" → f.kind = .staticMethod
  signatures : ∀ s ∈ f.signatures, s.Shaped

end TypeStub
