import TypeStub.Proofs.Live.Declarations
import TypeStub.Proofs.Live.Definitions
import TypeStub.Proofs.Load.Unique
import TypeStub.Proofs.Ty.Union

-- What the definitions of an accepted source become.
namespace TypeStub.Load

open TypeStub.Unique TypeStub.Live

-- A module that its live statements build from a state, with all definitions merged. A class of the
-- module is that of a class statement or, after these, that of a record. In a class statement's class
-- no two members share a name, so a property is the only member of its name.
structure Merges (start : BuildState) (live : List Stmt) (defs : List Definition)
    (declared : List StubClass) (last : BuildState) (m : StubModule) : Prop where
  runs : Runs start live defs declared last
  definedNames : defs.map (·.name) = definedNames live
  functions : Merge.Functions defs m.functions
  interleaved : ∀ defs', Merge.Interleaved defs defs' →
    ∃ functions, Merge.moduleFunctions defs' = .ok functions ∧ functions.Perm m.functions ∧
      (Merge.SameOrder defs defs' → functions = m.functions)
  classes : m.classes = declared ++ last.records.classes
  members : ∀ c ∈ declared, (memberNames c).Nodup
  records : ∀ c ∈ last.records.classes, c.methods = []

-- The state in which the statements of a stub with this name are built.
def start (name : Text) (live : List Stmt) : BuildState :=
  ⟨declare (Names.empty (name != "typing")) live, .none⟩

-- Merging loses, repeats and reorders nothing.
theorem load_merges (digest : Hasher) (target : Target) (filename : Option Text) (source : Text)
    (m : StubModule) (h : load digest ⟨none, target, filename⟩ source = .ok m) :
    ∃ name body defs declared last,
      digest.hex source = .ok name ∧ parseSource source = .ok body ∧
      Merges (start name (flatten target body)) (flatten target body) defs declared last m := by
  obtain ⟨name, body, built, hname, hp, hb, hv, rfl⟩ := load_ok h
  obtain ⟨last, hm⟩ := build_live hb
  obtain ⟨items, functions, hitems, hfunctions, hmodule, -⟩ := Declare.moduleOf_ok hm
  have hshaped := Declare.ensures_moduleBody Build.kept_any _ [] 0
    (areWritten_flatten target (parseSource_areWritten hp))
    ⟨trivial, by simp [Convert.Holds, Records.none]⟩ hitems
  have hruns := runs_of_moduleBody (reached_flatten target target [] 0 body) hitems
  have hrepeated := (fault?_eq_none_iff.mp (validate_eq_ok.mp hv)).2
  have hclasses : built.module.classes =
      items.filterMap Declare.Item.class? ++ last.records.classes := by rw [hmodule]
  have hmerged : Merge.moduleFunctions (items.filterMap Declare.Item.definition?) =
      .ok (qualify ⟨none, target, filename⟩ built.module).functions := by
    rw [qualify, hmodule]
    exact hfunctions
  refine ⟨name, body, _, _, last, hname, hp, hruns, hruns.definedNames,
    Merge.functions_of_moduleFunctions hmerged,
    fun defs' hi => Merge.moduleFunctions_interleaved hi hmerged, hclasses, fun c hc => ?_,
    fun c hc => (hshaped.2.2 c hc).1.methods⟩
  obtain ⟨item, hitem, hpick⟩ := List.mem_filterMap.mp hc
  have hitemShaped := hshaped.1 item hitem
  cases item <;> simp only [Declare.Item.class?, Option.some.injEq, reduceCtorEq] at hpick
  subst hpick
  exact nodup_of_repeated (hrepeated _ (hclasses ▸ List.mem_append_left _ hc))
    (StubClass.Shaped.member_ne_nil hitemShaped)

-- Overloads around a class, and a property whose setter comes after a method.
theorem load_merges_overloads :
    let source : Text :=
      "def f(x: int): ...\ndef g PYTHONCODE\nclass A:\n    @property\n    def p(self) -> int: ...\n" ++
      "    def n(self): ...\n    y: str\n    @p.setter\n    def p(self, value: str): ...\n" ++
      "    def n(self, z: int): ...\ndef f(x: str): ...\n"
    let overloads : List (Text × Nat) := [("f", 2), ("g", 0)]
    let members : List (List Text) := [["y", "p", "n"]]
    ∃ m, load Digest.md5 ⟨none, .standard, none⟩ source = .ok m ∧
      m.functions.map (fun f => (f.name, f.signatures.length)) = overloads ∧
      m.classes.map memberNames = members ∧
      (∃ c ∈ m.classes, ∃ p ∈ c.constants, p.name = "p" ∧ p.type = .named "str") ∧
      ∃ name body defs declared last,
        Digest.md5.hex source = .ok name ∧ parseSource source = .ok body ∧
        Merges (start name (flatten .standard body)) (flatten .standard body) defs declared last
          m := by
  intro source overloads members
  have hrun : (load Digest.md5 ⟨none, .standard, none⟩ source).toOption.any (fun m =>
      m.functions.map (fun f => (f.name, f.signatures.length)) == overloads &&
        m.classes.map memberNames == members &&
        m.classes.any fun c => c.constants.any fun p =>
          p.name == "p" && Ty.same p.type (.named "str")) = true := by
    decide +kernel
  obtain ⟨m, hm, hrun⟩ := (Option.any_eq_true _ _).mp hrun
  have hm := ok_of_toOption hm
  simp only [Bool.and_eq_true, beq_iff_eq, List.any_eq_true, Ty.same_iff] at hrun
  obtain ⟨⟨hfunctions, hmembers⟩, hproperty⟩ := hrun
  exact ⟨m, hm, hfunctions, hmembers, hproperty, load_merges Digest.md5 .standard none source m hm⟩

end TypeStub.Load

-- What the statements of an accepted source declare in its module.
namespace TypeStub.Load

open TypeStub.Convert TypeStub.Live

-- A module that lists what these statements declare, each in its place, and nothing else. Classes of
-- records come after those of class statements, in the order in which the records are finished.
def Listed (statements : List (Names × Stmt)) (m : StubModule) : Prop :=
  ∃ classes records, m.classes = classes ++ records ∧
    Makes statements m.constants m.aliases m.typeVariables classes records

-- The module that the live statements of an accepted source build, before its names are qualified.
-- Its record classes are those that the types of the statements leave, converted one after another.
theorem built_load {digest : Hasher} {request : Request} {source : Text} {m : StubModule}
    (h : load digest request source = .ok m) :
    ∃ name body built, moduleName digest request source = .ok name ∧
      parseSource source = .ok body ∧ build name request.target body = .ok built ∧
      m = qualify request built.module ∧
      let live := flatten request.target body
      let names := declare (Names.empty (name != "typing")) live
      ∃ defs classes state,
        Runs ⟨names, .none⟩ live defs classes state ∧
        Merge.Functions defs built.module.functions ∧
        ConvertsEach ((known names live).flatMap typesIn) .none state.records ∧
        built.module.classes = classes ++ state.records.classes ∧
        Makes (known names live) built.module.constants built.module.aliases
          built.module.typeVariables classes state.records.classes := by
  obtain ⟨name, body, built, hname, hp, hb, hv, rfl⟩ := load_ok h
  obtain ⟨last, hm⟩ := build_live hb
  obtain ⟨items, functions, hitems, hfunctions, hmodule, -⟩ := Declare.moduleOf_ok hm
  have hflat := reached_flatten request.target request.target [] 0 body
  obtain ⟨hconverts, added, hadded, hmakes⟩ := makes_moduleBody hflat hitems
  have hrecords : last.records.classes = added := by rw [hadded]; rfl
  refine ⟨name, body, built, hname, hp, hb, rfl, _, items.filterMap Declare.Item.class?, last,
    runs_of_moduleBody hflat hitems, ?_, hconverts, ?_, ?_⟩
  · rw [hmodule]
    exact Merge.functions_of_moduleFunctions hfunctions
  · rw [hmodule]
  · rw [hmodule, hrecords]
    exact hmakes

theorem listed_load {digest : Hasher} {request : Request} {source : Text} {m : StubModule}
    (h : load digest request source = .ok m) :
    ∃ name body built, moduleName digest request source = .ok name ∧
      parseSource source = .ok body ∧ build name request.target body = .ok built ∧
      m = qualify request built.module ∧
      let live := flatten request.target body
      let names := declare (Names.empty (name != "typing")) live
      (∃ defs declared last, Runs ⟨names, .none⟩ live defs declared last) ∧
        Listed (known names live) built.module := by
  obtain ⟨name, body, built, hname, hp, hb, hm, defs, classes, state, hruns, -, -, hclasses,
    hmakes⟩ := built_load h
  exact ⟨name, body, built, hname, hp, hb, hm, ⟨defs, classes, state, hruns⟩, classes, _, hclasses,
    hmakes⟩

-- Declarations are neither lost nor reordered.
theorem load_declares (digest : Hasher) (target : Target) (filename : Option Text) (source : Text)
    (m : StubModule) (h : load digest ⟨none, target, filename⟩ source = .ok m) :
    ∃ name body, digest.hex source = .ok name ∧ parseSource source = .ok body ∧
      let live := flatten target body
      (known (start name live).names live).map (·.2) = live ∧
        Listed (known (start name live).names live) m := by
  obtain ⟨name, body, built, hname, hp, -, rfl, -, hlisted⟩ := listed_load h
  exact ⟨name, body, hname, hp, map_known _ _, hlisted⟩

-- Constants around a branch, imports with and without other names, and a record within a record.
theorem load_declares_lists :
    let source : Text :=
      "from typing import List\nfrom a import b as c, d\nx: int\nif sys.platform == 'linux':\n" ++
      "    y = 0\nelse:\n    z = ...\nT = TypeVar('T', int, str)\nL = List[T]\n" ++
      "n: NamedTuple('N', [('f', NamedTuple('M', [('g', int)]))])\nclass A: ...\n"
    let names : List (List Text) :=
      [["x", "y", "n"], ["c", "d", "L"], ["T"], ["A", "`M`", "`N`"]]
    ∃ m, load Digest.md5 ⟨none, .standard, none⟩ source = .ok m ∧
      [m.constants.map (·.name), m.aliases.map (·.name), m.typeVariables.map (·.name),
        m.classes.map (·.name)] = names ∧
      ∃ name body, Digest.md5.hex source = .ok name ∧ parseSource source = .ok body ∧
        let live := flatten .standard body
        (known (start name live).names live).map (·.2) = live ∧
          Listed (known (start name live).names live) m := by
  intro source names
  have hrun : (load Digest.md5 ⟨none, .standard, none⟩ source).toOption.any (fun m =>
      [m.constants.map (·.name), m.aliases.map (·.name), m.typeVariables.map (·.name),
        m.classes.map (·.name)] == names) = true := by
    decide +kernel
  obtain ⟨m, hm, hnames⟩ := (Option.any_eq_true _ _).mp hrun
  have hm := ok_of_toOption hm
  exact ⟨m, hm, beq_iff_eq.mp hnames, load_declares Digest.md5 .standard none source m hm⟩

end TypeStub.Load
