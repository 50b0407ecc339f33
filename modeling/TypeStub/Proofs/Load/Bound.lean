import TypeStub.Proofs.Load.Canonical
import TypeStub.Proofs.Load.Declared
import TypeStub.Proofs.Module.Types
import TypeStub.Proofs.Ty.Bound

-- Where the type parameters in the types of a module come from.
namespace TypeStub

open Ty

section

variable {known : List Text}

theorem Names.bound_resolve {names : Names}
    (hn : ∀ name, names.isTypeVar name = true → name ∈ known) (id : Text) :
    Bound known (names.resolve id) := by
  rcases names.resolve_cases id with ⟨hvar, h⟩ | h | h | ⟨name, h⟩ <;> rw [h]
  · exact bound_parameter.mpr (hn id hvar)
  · exact bound_nothing
  · exact bound_anything
  · exact bound_named name

theorem Convert.closed_bound {names : Names}
    (hn : ∀ name, names.isTypeVar name = true → name ∈ known) : Closed names (Bound known) where
  anything := bound_anything
  bare id _ _ := Names.bound_resolve hn id
  none := bound_named _
  union types h := bound_unionOf h
  noFields := by simp [tupleBase]
  tuple types _ h := bound_tuple.mpr ⟨bound_named _, h⟩
  parametrized base elements params hb _ _ hp := by
    have hbase : Bound known base := by
      rcases hb with rfl | ⟨id, rfl, -⟩
      · exact bound_named _
      · exact Names.bound_resolve hn id
    unfold Convert.parametrized
    split
    · exact bound_generic.mpr ⟨hbase, fun type hm => hp type (List.mem_of_mem_take hm)⟩
    split
    · exact bound_tuple.mpr ⟨hbase, hp⟩
    · exact bound_generic.mpr ⟨hbase, hp⟩
  openCallable base result hb hr := by
    obtain rfl := isNamed_iff.mp hb
    simp [hr]
  callable base args result hb ha hr := by
    obtain rfl := isNamed_iff.mp hb
    exact bound_callable.mpr ⟨bound_named _, ha, hr⟩
  record records name := bound_named _

-- The names of the type variables stay the same while a module is built.
theorem Build.kept_bound (known : List Text) :
    Kept (fun names => ∀ name, names.isTypeVar name = true → name ∈ known) (Bound known) where
  converted names hn := Convert.closed_bound hn
  imported := fun _ _ _ _ _ _ hn => hn
  member _ _ _ _ _ := bound_named _
  plain name _ := bound_named name
  anything := bound_anything
  optional type h := bound_unionOf (by simpa using h)
  starred type h := by simpa using h
  keyed type h := by simpa using h

end

namespace Load

open Live

-- The name under which a module lists its own declaration.
def listedName (request : Request) (name : Text) : Text :=
  match request.name with
  | some module => Qualify.qualified module name
  | none => name

theorem typeVariables_qualify (request : Request) (m : StubModule) :
    (qualify request m).typeVariables.map (·.name) =
      (m.typeVariables.map (·.name)).map (listedName request) := by
  cases hr : request.name with
  | none => simp [qualify, listedName, hr]
  | some module =>
      simp [qualify, listedName, hr, Qualify.module, Function.comp_def]

theorem bound_qualify {known : List Text} (request : Request) {m : StubModule}
    (h : ∀ type ∈ m.types, Bound known type) :
    ∀ type ∈ (qualify request m).types, Bound known type := by
  unfold qualify
  cases request.name with
  | none => exact h
  | some module =>
      dsimp only
      rw [Qualify.types_module]
      intro type ht
      obtain ⟨plain, hp, rfl⟩ := List.mem_map.mp ht
      exact (bound_mapNames _ plain).mpr (h plain hp)

-- A type parameter stands for a type variable of the module. It keeps the variable's own name, also
-- where the module lists the variable under a qualified one.
theorem load_bound (digest : Hasher) (request : Request) (source : Text) (m : StubModule)
    (h : load digest request source = .ok m) :
    ∀ type ∈ m.types, ∀ name, .parameter name ∈ type.parts →
      listedName request name ∈ m.typeVariables.map (·.name) := by
  obtain ⟨_, body, built, -, hp, hb, rfl, ⟨defs, declared, last, hruns⟩, classes, records, -,
    hmakes⟩ := listed_load h
  have hnames : built.module.typeVariables.map (·.name) =
      (flatten request.target body).filterMap typeVariableName? := by
    rw [hmakes.typeVariableNames, map_known]
  have hshaped := shaped_load
    (Build.kept_bound (built.module.typeVariables.map (·.name))) ?_ hp hb
  · intro type ht name hpart
    rw [typeVariables_qualify]
    exact List.mem_map_of_mem (bound_qualify request hshaped.types type ht name hpart)
  · intro scan hscan name hvar
    obtain rfl := tree_ok hscan
    rcases hruns.isTypeVar_declare hvar with hempty | hlive
    · simp [Names.isTypeVar, Names.empty] at hempty
    · rwa [hnames]

-- A variable that a list and another variable's constraint mention, in a module with a name.
theorem load_bound_named :
    let source : Text := "T = TypeVar('T')\nU = TypeVar('U', List[T])\nx: List[U]\n"
    ∃ m, load Digest.md5 ⟨some "m", .standard, none⟩ source = .ok m ∧
      (∃ type ∈ m.types, type = generic (named "list") [.parameter "U"]) ∧
      (∃ type ∈ m.types, type = generic (named "list") [.parameter "T"]) ∧
      Qualify.qualified "m" "U" ∈ m.typeVariables.map (·.name) ∧
      Qualify.qualified "m" "T" ∈ m.typeVariables.map (·.name) := by
  intro source
  have hrun : (load Digest.md5 ⟨some "m", .standard, none⟩ source).toOption.any (fun m =>
      m.types.any (same (generic (named "list") [.parameter "U"])) &&
        m.types.any (same (generic (named "list") [.parameter "T"]))) = true := by
    decide +kernel
  obtain ⟨m, hm, hrun⟩ := (Option.any_eq_true _ _).mp hrun
  have hm := ok_of_toOption hm
  rw [Bool.and_eq_true, List.any_eq_true, List.any_eq_true] at hrun
  obtain ⟨⟨first, hfirst, hu⟩, second, hsecond, ht⟩ := hrun
  obtain rfl := (same_iff _ _).mp hu
  obtain rfl := (same_iff _ _).mp ht
  have hbound := load_bound Digest.md5 ⟨some "m", .standard, none⟩ source m hm
  refine ⟨m, hm, ⟨_, hfirst, rfl⟩, ⟨_, hsecond, rfl⟩, ?_, ?_⟩
  · exact hbound _ hfirst "U" (by simp)
  · exact hbound _ hsecond "T" (by simp)

-- Under a name of its own a module does not list a type variable by the name that its types use.
theorem load_parameter_unlisted :
    ∃ m, load Digest.md5 ⟨some "m", .standard, none⟩ "T = TypeVar('T')\nx: T\n" = .ok m ∧
      ∃ type ∈ m.types, ∃ name, .parameter name ∈ type.parts ∧
        name ∉ m.typeVariables.map (·.name) := by
  have hrun : (load Digest.md5 ⟨some "m", .standard, none⟩
      "T = TypeVar('T')\nx: T\n").toOption.any (fun m => m.types.any (same (.parameter "T")) &&
        !(m.typeVariables.any (·.name == "T"))) = true := by
    decide +kernel
  obtain ⟨m, hm, hrun⟩ := (Option.any_eq_true _ _).mp hrun
  rw [Bool.and_eq_true, List.any_eq_true, Bool.not_eq_true', List.any_eq_false] at hrun
  obtain ⟨⟨type, ht, hsame⟩, hunlisted⟩ := hrun
  obtain rfl := (same_iff _ _).mp hsame
  refine ⟨m, ok_of_toOption hm, _, ht, "T", mem_parts_self _, fun hlisted => ?_⟩
  obtain ⟨v, hv, hname⟩ := List.mem_map.mp hlisted
  exact hunlisted v hv (beq_iff_eq.mpr hname)

end Load

end TypeStub
