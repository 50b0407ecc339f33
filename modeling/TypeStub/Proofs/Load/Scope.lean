import TypeStub.Proofs.Live.Scope
import TypeStub.Proofs.Live.Typed
import TypeStub.Proofs.Load.Numbered

-- What the names in an accepted source stand for.
namespace TypeStub.Load

open TypeStub.Convert TypeStub.Live

-- The names that are known at a place are the declarations of all live code and the imports before
-- the place.
theorem places_at (name : Text) (target : Target) {body before after : List Stmt}
    {statement : Stmt} (hlive : flatten target body = before ++ statement :: after) :
    (places name target body)[before.length]? =
      some (declaring (importsOnly (name != "typing") before) (flatten target body), statement) := by
  have hat := known_at (declaring (Names.empty (name != "typing")) (flatten target body)) before
    statement after
  rw [← hlive] at hat
  rw [places, declare_flatten, hat]
  simp [declaring, importsOnly, Names.empty]

-- A module with the types that are written in the statements at these places, each read with the
-- names that are known there: those of its lists, of its classes and of the definitions that merge to
-- its functions. The records are those that the types leave when they are converted in order.
structure ReadsTypes (places : List (Names × Stmt)) (m : StubModule) (classes : List StubClass)
    (records : Records) : Prop where
  split : m.classes = classes ++ records.classes
  converts : ConvertsEach (places.flatMap typesIn) .none records
  makes : Makes places m.constants m.aliases m.typeVariables classes records.classes
  definitions : ∃ defs, Typed places defs classes ∧ Merge.Functions defs m.functions

-- In every type of live code the names of its type variables and classes stand for these, wherever
-- they are declared and whatever else has such a name. What any other name stands for is up to the
-- built-ins and the imports before it. These are the types that the module has.
theorem load_resolves (digest : Hasher) (request : Request) (source : Text) (m : StubModule)
    (h : load digest request source = .ok m) :
    ∃ name body built classes records, moduleName digest request source = .ok name ∧
      parseSource source = .ok body ∧ build name request.target body = .ok built ∧
      m = qualify request built.module ∧
      ReadsTypes (places name request.target body) built.module classes records ∧
      let useBuiltins := name != "typing"
      let live := flatten request.target body
      ∀ before statement after, live = before ++ statement :: after →
        ∃ names, (places name request.target body)[before.length]? = some (names, statement) ∧
          Shadows useBuiltins live before names ∧
          ∀ e ∈ statement.types, (names, e) ∈ conversions name request.target body ∧
            ((∀ id ∈ e.typeNames, id ∉ declaredVariables live ∧ id ∉ declaredClasses live) →
            Convert.type names e = Convert.type (importsOnly useBuiltins before) e) := by
  obtain ⟨name, body, built, hname, hp, hb, hm, defs, classes, state, hruns, hfunctions, hconverts,
    hclasses, hmakes⟩ := built_load h
  refine ⟨name, body, built, classes, state.records, hname, hp, hb, hm,
    ⟨hclasses, hconverts, hmakes, defs, hruns.typed, hfunctions⟩, ?_⟩
  intro useBuiltins live before statement after hlive
  have hshadows := shadows_declaring useBuiltins live before
  have hplace := places_at name request.target hlive
  refine ⟨_, hplace, hshadows, fun e he => ⟨?_, hshadows.type_eq⟩⟩
  exact List.mem_flatMap.mpr ⟨_, List.mem_of_getElem? hplace, List.mem_map_of_mem he⟩

-- Classes and a variable that hide a built-in, an import and each other, before and after their
-- uses. The class of a branch that is not taken hides nothing.
theorem load_resolves_declarations :
    let source : Text :=
      "from typing import Dict as A\nfrom a import B\nx: Callable[[List[A]], B]\n" ++
      "if sys.platform == 'linux':\n    class List: ...\nelse:\n    class B: ...\n" ++
      "A = TypeVar('A')\nclass C(A, typing.List[C]): ...\n"
    let types : List Ty :=
      [.callable (.named "typing.Callable") [.generic (.named "List") [.parameter "A"]]
        (.named "a.B"), .parameter "A", .generic (.named "list") [.named "C"]]
    ∃ m, load Digest.md5 ⟨none, .standard, none⟩ source = .ok m ∧
      m.constants.map (·.type) ++ m.classes.flatMap (·.parents) = types ∧
      ∃ name body classes records, parseSource source = .ok body ∧
        ReadsTypes (places name .standard body) m classes records ∧
        let live := flatten .standard body
        (declaredClasses live, declaredVariables live) =
            ((["List", "C"], ["A"]) : List Text × List Text) ∧
          ∀ before statement after, live = before ++ statement :: after →
            ∃ names, (places name .standard body)[before.length]? = some (names, statement) ∧
              Shadows true live before names := by
  intro source types
  have hload : (load Digest.md5 ⟨none, .standard, none⟩ source).toOption.any (fun m =>
      m.constants.map (·.type) ++ m.classes.flatMap (·.parents) == types) = true := by
    decide +kernel
  have hparse : (parseSource source).toOption.any (fun body =>
      (declaredClasses (flatten .standard body), declaredVariables (flatten .standard body)) ==
        ((["List", "C"], ["A"]) : List Text × List Text)) = true := by
    decide +kernel
  obtain ⟨m, hm, htypes⟩ := (Option.any_eq_true _ _).mp hload
  have hm := ok_of_toOption hm
  obtain ⟨name, body, built, classes, records, hname, hp, -, rfl, hreads, hplaces⟩ :=
    load_resolves Digest.md5 ⟨none, .standard, none⟩ source m hm
  rw [hp] at hparse
  have hbuiltins : (name != "typing") = true :=
    bne_iff_ne.mpr (Digest.sized_md5.ne_typing hname)
  refine ⟨_, hm, beq_iff_eq.mp htypes, name, body, classes, records, hp, hreads,
    beq_iff_eq.mp hparse, ?_⟩
  intro before statement after hlive
  obtain ⟨names, hplace, hshadows, -⟩ := hplaces before statement after hlive
  exact ⟨names, hplace, hbuiltins ▸ hshadows⟩

end TypeStub.Load
