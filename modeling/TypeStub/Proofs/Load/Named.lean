import TypeStub.Proofs.Load.Outcome
import TypeStub.Proofs.Module.QualifiedBy
import TypeStub.Proofs.Module.Types
import TypeStub.Proofs.Ty.Union

-- What an explicit name does to the outcome of loading.
namespace TypeStub

namespace Declare

-- The same result under another name.
def Built.named (name : Text) (built : Built) : Built :=
  { built with module := { built.module with name := name } }

theorem moduleOf_named (name other : Text) (liveness : Liveness) (body : List Stmt) :
    moduleOf name liveness body = Built.named name <$> moduleOf other liveness body := by
  simp [moduleOf, Built.named]

end Declare

namespace Load

variable {name other : Text}

-- Building needs the name of a module for the module's own name, and to know the typing module.
theorem build_named (hn : name ≠ "typing") (ho : other ≠ "typing") (target : Target)
    (body : List Stmt) :
    build name target body = (build other target body).map (Declare.Built.named name) := by
  have hsame : (name != "typing") = (other != "typing") := by
    rw [bne_iff_ne.mpr hn, bne_iff_ne.mpr ho]
  unfold build
  rw [hsame]
  cases Prescan.tree (other != "typing") target body with
  | error fault => rfl
  | ok scan =>
      dsimp only
      rw [Declare.moduleOf_named name other]
      simp only [Functor.map, EStateM.map]
      cases Declare.moduleOf other scan.liveness body ⟨scan.names, .none⟩ <;> rfl

theorem validate_named (built : Declare.Built) :
    validate (built.named name) = validate built := rfl

-- The two runs take the same way through every stage.
theorem loadAs_eq_map (hn : name ≠ "typing") (ho : other ≠ "typing") (target : Target)
    (filename : Option Text) (source : Text) :
    loadAs name ⟨some name, target, filename⟩ source =
      (loadAs other ⟨none, target, filename⟩ source).map
        fun m => Qualify.module name { m with name := name } := by
  have hbuild : ∀ body, build name target body =
      (build other target body).map (Declare.Built.named name) := build_named hn ho target
  unfold loadAs
  cases parseSource source with
  | error d => rfl
  | ok body =>
      dsimp only
      rw [hbuild]
      cases build other target body with
      | error fault => rfl
      | ok built =>
          simp only [Except.map, validate_named]
          cases validate built <;> rfl

-- A source that is rejected is rejected with the same diagnostic, as long as it has a digest: this
-- a source needs only without a name. The module of any other source is the same one with its names
-- qualified, and nothing else changed.
theorem load_named {digest : Hasher} (hs : digest.Sized) (hn : name ≠ "typing") (target : Target)
    (filename : Option Text) (source : Text) {bytes : List UInt8} (hd : digest source = .ok bytes) :
    (∀ d, load digest ⟨some name, target, filename⟩ source = .error d ↔
      load digest ⟨none, target, filename⟩ source = .error d) ∧
    ∀ m, load digest ⟨none, target, filename⟩ source = .ok m →
      ∃ named, load digest ⟨some name, target, filename⟩ source = .ok named ∧
        m.QualifiedBy name named ∧ ∀ n, m.QualifiedBy name n → n = named := by
  have hhex : digest.hex source = .ok (Digest.hex bytes) := Hasher.hex_eq_ok.mpr ⟨bytes, hd, rfl⟩
  have hunnamed : moduleName digest ⟨none, target, filename⟩ source = .ok (Digest.hex bytes) := hhex
  have hmap : load digest ⟨some name, target, filename⟩ source =
      (load digest ⟨none, target, filename⟩ source).map
        fun m => Qualify.module name { m with name := name } := by
    rw [load_of_moduleName hunnamed]
    exact loadAs_eq_map hn (hs.ne_typing hhex) target filename source
  rw [hmap]
  constructor
  · intro d
    cases load digest ⟨none, target, filename⟩ source <;> simp [Except.map]
  · intro m hm
    refine ⟨Qualify.module name { m with name := name }, by rw [hm]; rfl,
      (Qualify.module_iff ..).mpr rfl, fun n hn => (Qualify.module_iff ..).mp hn⟩

-- The class of a record is one of the module. A type variable keeps its name inside types.
theorem load_named_record :
    let source : Text :=
      "T = TypeVar('T', A)\nx: NamedTuple('R', [('y', List[A])])\nclass A: ...\n" ++
      "def f(A: Callable[[A], T]) -> a.A: ...\n"
    let typesWith (record A : Text) : List Ty :=
      [.named record, .named A, .tuple (.named "tuple") [.generic (.named "list") [.named A]],
        .generic (.named "list") [.named A],
        .callable (.named "typing.Callable") [.named A] (.parameter "T"), .named "a.A"]
    ("foo" : Text) ≠ "typing" ∧
      ∃ m named, load Digest.md5 ⟨none, .standard, none⟩ source = .ok m ∧
        load Digest.md5 ⟨some "foo", .standard, none⟩ source = .ok named ∧ m.QualifiedBy "foo" named ∧
        m.types = typesWith "\x60R\x60" "A" ∧ named.types = typesWith "foo.\x60R\x60" "foo.A" := by
  intro source typesWith
  have hunnamed : (load Digest.md5 ⟨none, .standard, none⟩ source).toOption.any (fun m =>
      m.types == typesWith "\x60R\x60" "A") = true := by
    decide +kernel
  have hnamed : (load Digest.md5 ⟨some "foo", .standard, none⟩ source).toOption.any (fun m =>
      m.types == typesWith "foo.\x60R\x60" "foo.A") = true := by
    decide +kernel
  have hname : ("foo" : Text) ≠ "typing" := by decide
  obtain ⟨m, hm, htypes⟩ := (Option.any_eq_true _ _).mp hunnamed
  obtain ⟨named, hn, hnamedTypes⟩ := (Option.any_eq_true _ _).mp hnamed
  have hm := ok_of_toOption hm
  have hn := ok_of_toOption hn
  obtain ⟨other, hother, hqualified, -⟩ :=
    (load_named Digest.sized_md5 hname .standard none source rfl).2 m hm
  obtain rfl : other = named := Except.ok.inj (hother.symm.trans hn)
  exact ⟨hname, m, other, hm, hother, hqualified, beq_iff_eq.mp htypes,
    beq_iff_eq.mp hnamedTypes⟩

end Load

end TypeStub
