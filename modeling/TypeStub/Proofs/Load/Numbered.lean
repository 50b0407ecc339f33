import TypeStub.Proofs.Live.TextOrder
import TypeStub.Proofs.Load.Declared

-- Which number the record classes of an accepted source get.
namespace TypeStub.Load

open TypeStub.Convert TypeStub.Live

-- The live statements of a body, each with the names that are known at its place.
def places (name : Text) (target : Target) (body : List Stmt) : List (Names × Stmt) :=
  let live := flatten target body
  known (declare (Names.empty (name != "typing")) live) live

-- The types for which they are read, in the order in which these are converted.
def conversions (name : Text) (target : Target) (body : List Stmt) : List (Names × Expr) :=
  (places name target body).flatMap typesIn

-- Every record of a live type has its class, named for the number of records of its name that are
-- opened before it: a record is opened before those in its fields, one in the result of a callable
-- type before those in its arguments, and one in an exception before those in the mutators. This is
-- the order of the text where no callable type and no definition has records on both of these sides.
theorem load_numbers (digest : Hasher) (request : Request) (source : Text) (m : StubModule)
    (h : load digest request source = .ok m) :
    ∃ name body built, moduleName digest request source = .ok name ∧
      parseSource source = .ok body ∧ build name request.target body = .ok built ∧
      m = qualify request built.module ∧
      let types := conversions name request.target body
      (∃ classes records, built.module.classes = classes ++ records ∧
        classes.map (·.name) = (classStatements (flatten request.target body)).map (·.1) ∧
        List.Forall₂ MakesNumbered (numberedEach [] types) records) ∧
      IsNumbering [] (openedEach types) (finishedEach types) (numberedEach [] types) ∧
      ∀ text, List.Forall₂ InText (places name request.target body) text →
        (∀ place ∈ places name request.target body, Apart place) →
        openedEach types = text.flatten := by
  obtain ⟨name, body, built, hname, hp, hb, hm, defs, classes, state, -, -, hconverts, hclasses,
    hmakes⟩ := built_load h
  obtain ⟨-, added, hadded, hnumbers⟩ := hconverts.numbers
  have hrecords : state.records.classes = added := by rw [hadded]; rfl
  refine ⟨name, body, built, hname, hp, hb, hm, ⟨classes, added, hrecords ▸ hclasses, ?_, hnumbers⟩,
    isNumbering_numberedEach [] _, fun text htext hapart => openedEach_eq_text htext hapart⟩
  rw [hmakes.classes, map_known]

-- A record within a record of the same name, and another one after it.
theorem load_numbers_nested :
    let source : Text :=
      "x: NamedTuple('A', [('f', NamedTuple('A', []))])\ny: NamedTuple('A', [('g', int)])\n"
    ∃ m, load Digest.md5 ⟨none, .standard, none⟩ source = .ok m ∧
      m.classes.map (·.name) = (["\x60A~1\x60", "\x60A\x60", "\x60A~2\x60"] : List Text) ∧
      ∃ name body, Digest.md5.hex source = .ok name ∧ parseSource source = .ok body ∧
        ∃ classes records, m.classes = classes ++ records ∧
          List.Forall₂ MakesNumbered
            (numberedEach [] (conversions name .standard body)) records := by
  intro source
  have hrun : (load Digest.md5 ⟨none, .standard, none⟩ source).toOption.any (fun m =>
      m.classes.map (·.name) == (["\x60A~1\x60", "\x60A\x60", "\x60A~2\x60"] : List Text)) =
        true := by
    decide +kernel
  obtain ⟨m, hm, hnames⟩ := (Option.any_eq_true _ _).mp hrun
  have hm := ok_of_toOption hm
  obtain ⟨name, body, built, hname, hp, -, rfl, ⟨classes, records, hclasses, -, hnumbers⟩, -⟩ :=
    load_numbers Digest.md5 ⟨none, .standard, none⟩ source m hm
  exact ⟨_, hm, beq_iff_eq.mp hnames, name, body, hname, hp, classes, records, hclasses, hnumbers⟩

-- Here the record that starts first in the text gets the number of the second one.
theorem load_numbers_result_first :
    let source : Text := "x: Callable[[NamedTuple('A', [])], NamedTuple('A', [('b', int)])]"
    (∃ m, load Digest.md5 ⟨none, .standard, none⟩ source = .ok m ∧
      m.classes.map (fun c => (c.name, c.constants.map (·.name))) =
        ([("\x60A\x60", ["b"]), ("\x60A~1\x60", [])] : List (Text × List Text))) ∧
      ∃ name body, Digest.md5.hex source = .ok name ∧ parseSource source = .ok body ∧
        ((conversions name .standard body).flatMap fun (names, e) =>
            (textRecords names e).map fun written => (written.name, written.fields.map (·.1))) =
          ([("A", []), ("A", ["b"])] : List (Text × List Text)) := by
  intro source
  have hload : (load Digest.md5 ⟨none, .standard, none⟩ source).toOption.any (fun m =>
      m.classes.map (fun c => (c.name, c.constants.map (·.name))) ==
        ([("\x60A\x60", ["b"]), ("\x60A~1\x60", [])] : List (Text × List Text))) = true := by
    decide +kernel
  have hparse : (Digest.md5.hex source).toOption.any (fun name =>
      (parseSource source).toOption.any fun body =>
        ((conversions name .standard body).flatMap fun (names, e) =>
            (textRecords names e).map fun written => (written.name, written.fields.map (·.1))) ==
          ([("A", []), ("A", ["b"])] : List (Text × List Text))) = true := by
    decide +kernel
  obtain ⟨m, hm, hclasses⟩ := (Option.any_eq_true _ _).mp hload
  obtain ⟨name, hname, hparse⟩ := (Option.any_eq_true _ _).mp hparse
  obtain ⟨body, hbody, htext⟩ := (Option.any_eq_true _ _).mp hparse
  exact ⟨⟨m, ok_of_toOption hm, beq_iff_eq.mp hclasses⟩, name, body, ok_of_toOption hname,
    ok_of_toOption hbody, beq_iff_eq.mp htext⟩

end TypeStub.Load
