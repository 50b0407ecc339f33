import TypeStub.Proofs.Load.Reload

-- The text of a function decodes to the function.
namespace TypeStub

open Print Grammar

-- A type that can be read where it is written, no more types nested in it than may be.
structure Ty.Legible (type : Ty) : Prop where
  printable : type.Printable []
  nesting : (expr type).nesting ≤ nestingLimit

-- `*args` or `**kwargs`, of a container by itself or of one type in its last place.
def Parameter.StarLegible (container : Text) (given : List Ty) (p : Parameter) : Prop :=
  PlainWord p.name ∧ (p.type = .named container ∨
    ∃ element : Ty, element.Legible ∧ p.type = .generic (.named container) (given ++ [element]))

-- The keyword-only parameters come last, and only parameters are mutated. To raise a NamedTuple
-- would look like a record.
structure Signature.Legible (s : Signature) : Prop where
  params : ∀ p ∈ s.params, PlainWord p.name ∧ p.type.Legible
  keywordsLast : ∃ plain others, s.params = plain ++ others ∧
    (∀ p ∈ plain, p.keywordOnly = false) ∧ ∀ p ∈ others, p.keywordOnly = true
  star : ∀ p ∈ s.starArgs, p.StarLegible "tuple" []
  doubleStar : ∀ p ∈ s.starStarArgs, p.StarLegible "dict" [.named "str"]
  returns : s.returns.Legible
  exceptions : ∀ type ∈ s.exceptions, type.Legible ∧ type ≠ .named "typing.NamedTuple"
  mutators : ∀ m ∈ s.mutators, m.type.Legible ∧
    ∃ p ∈ s.params ++ s.starArgs.toList ++ s.starStarArgs.toList, p.name = m.name

-- An external function has native code for its signatures; any other has at least one.
structure StubFunction.Legible (f : StubFunction) : Prop where
  name : PlainWord f.name
  native : f.isExternal = true → f.signatures = [] ∧ f.kind = .method
  overloads : f.isExternal = false → f.signatures ≠ []
  allocator : f.isExternal = false → f.name = "__new__" → f.kind = .staticMethod
  signatures : ∀ s ∈ f.signatures, s.Legible

-- A star parameter as it is read, with no default and not keyword-only.
def Parameter.unflagged (p : Parameter) : Parameter := Build.plainParameter p.name p.type

-- With its star parameters as they are read.
def Signature.unflagged (s : Signature) : Signature :=
  { s with
    starArgs := s.starArgs.map Parameter.unflagged
    starStarArgs := s.starStarArgs.map Parameter.unflagged }

def StubFunction.unflagged (f : StubFunction) : StubFunction :=
  { f with signatures := f.signatures.map Signature.unflagged }

-- A function whose star parameters have no flags.
def StubFunction.Unflagged (f : StubFunction) : Prop :=
  ∀ s ∈ f.signatures, ∀ p ∈ s.starArgs.toList ++ s.starStarArgs.toList,
    p.isOptional = false ∧ p.keywordOnly = false

theorem StubFunction.Unflagged.eq {f : StubFunction} (h : f.Unflagged) : f.unflagged = f := by
  have hoption : ∀ o : Option Parameter,
      (∀ p ∈ o, p.isOptional = false ∧ p.keywordOnly = false) → o.map Parameter.unflagged = o := by
    intro o ho
    cases o with
    | none => rfl
    | some p =>
        obtain ⟨hoptional, hkeyword⟩ := ho p rfl
        obtain ⟨name, type, _, _⟩ := p
        obtain rfl := hoptional
        obtain rfl := hkeyword
        rfl
  have hsignatures : f.signatures.map Signature.unflagged = f.signatures := by
    refine (List.map_congr_left fun s hs => ?_).trans (List.map_id _)
    have hstar := hoption s.starArgs fun p hp => h s hs p (by simpa using .inl hp)
    have hdouble := hoption s.starStarArgs fun p hp => h s hs p (by simpa using .inr hp)
    rw [Signature.unflagged, hstar, hdouble]
    rfl
  rw [StubFunction.unflagged, hsignatures]

-- A word that stands for itself.
theorem Ty.printableAtom_word {word : Text} (hp : PlainWord word) (hf : word ∉ fixedNames)
    (hb : Builtin.ofName? word = none) (ht : Text.after? "typing." word = none) :
    (Ty.named word).PrintableAtom [] :=
  .inr (.inr ⟨.single hp, by simp, hf, hb, ht⟩)

theorem Ty.PrintableAtom.legible {type : Ty} (h : type.PrintableAtom []) : type.Legible := by
  cases type with
  | named | anything | nothing | parameter => exact ⟨h, show 1 ≤ nestingLimit by decide⟩
  | _ => exact h.elim

theorem Names.standard_builtins : Names.Standard [] ⟨true, [], [], []⟩ :=
  ⟨rfl, rfl, rfl, by simp, by simp⟩

-- The container of a star parameter can be told from its text where the type in it can.
theorem printable_tupleOf {element : Ty} (h : element.Legible) :
    (Ty.generic (.named "tuple") ([] ++ [element])).Printable [] :=
  ⟨⟨h.printable, trivial⟩, .inl ⟨rfl, rfl⟩⟩

theorem printable_dictOf {element : Ty} (h : element.Legible) :
    (Ty.generic (.named "dict") ([.named "str"] ++ [element])).Printable [] := by
  have hdict : (Ty.named "dict").PrintableAtom [] :=
    Ty.printableAtom_word (by decide) (by decide) rfl rfl
  have hstr : (Ty.named "str").PrintableAtom [] :=
    Ty.printableAtom_word (by decide) (by decide) rfl rfl
  exact ⟨⟨hstr, h.printable, trivial⟩, .inr (.inr ⟨hdict, by simp, by simp, by simp⟩)⟩

theorem Parameter.StarLegible.printable {container : Text} {given : List Ty} {p : Parameter}
    (h : p.StarLegible container given) (hc : (Ty.named container).PrintableAtom [])
    (hg : ∀ element : Ty, element.Legible →
      (Ty.generic (.named container) (given ++ [element])).Printable []) : p.type.Printable [] := by
  obtain ⟨-, htype | ⟨element, helement, htype⟩⟩ := h <;> rw [htype]
  · exact hc
  · exact hg element helement

theorem Parameter.StarLegible.isStar {container : Text} {given : List Ty} {p : Parameter}
    (h : p.StarLegible container given) : p.unflagged.IsStar container given := by
  obtain ⟨hname, htype⟩ := h
  refine ⟨hname.identifier, rfl, rfl, ?_⟩
  obtain htype | ⟨element, -, htype⟩ := htype
  · exact .inl htype
  · exact .inr ⟨element, htype⟩

theorem Parameter.StarLegible.element {container : Text} {given : List Ty} {p : Parameter}
    (h : p.StarLegible container given) : ∀ type ∈ p.unflagged.element?, type.Legible := by
  obtain ⟨-, htype | ⟨element, helement, htype⟩⟩ := h
  · simp [Parameter.element?, Parameter.unflagged, Build.plainParameter, htype]
  · simp only [Parameter.element?, Parameter.unflagged, Build.plainParameter, htype,
      List.getLast?_concat]
    rintro type ⟨⟩
    exact helement

section

variable {s : Signature} (h : s.Legible)

include h

theorem Signature.Legible.printable : ∀ type ∈ s.unflagged.types, type.Printable [] := by
  have htuple : (Ty.named "tuple").PrintableAtom [] :=
    Ty.printableAtom_word (by decide) (by decide) rfl rfl
  have hdict : (Ty.named "dict").PrintableAtom [] :=
    Ty.printableAtom_word (by decide) (by decide) rfl rfl
  simp only [Signature.types, Signature.unflagged, List.mem_append, List.mem_map, List.mem_singleton,
    Option.mem_toList, Option.map_eq_some_iff]
  rintro type (((((⟨p, hp, rfl⟩ | ⟨_, ⟨p, hp, rfl⟩, rfl⟩) | ⟨_, ⟨p, hp, rfl⟩, rfl⟩) | rfl) | ht) |
    ⟨m, hm, rfl⟩)
  · exact (h.params p hp).2.printable
  · exact (h.star p hp).printable htuple fun _ => printable_tupleOf
  · exact (h.doubleStar p hp).printable hdict fun _ => printable_dictOf
  · exact h.returns.printable
  · exact (h.exceptions type ht).1.printable
  · exact (h.mutators m hm).1.printable

theorem Signature.Legible.shaped : s.unflagged.Shaped where
  names p hp := (h.params p hp).1.identifier
  keywordsLast := h.keywordsLast
  star p hp := by
    obtain ⟨q, hq, rfl⟩ := Option.map_eq_some_iff.mp hp
    exact (h.star q hq).isStar
  doubleStar p hp := by
    obtain ⟨q, hq, rfl⟩ := Option.map_eq_some_iff.mp hp
    exact (h.doubleStar q hq).isStar
  mutated m hm := by
    obtain ⟨p, hp, hname⟩ := (h.mutators m hm).2
    simp only [Signature.unflagged, List.mem_append, Option.mem_toList,
      Option.map_eq_some_iff] at hp ⊢
    rcases hp with (hp | hp) | hp
    · exact ⟨p, .inl (.inl hp), hname⟩
    · exact ⟨p.unflagged, .inl (.inr ⟨p, hp, rfl⟩), hname⟩
    · exact ⟨p.unflagged, .inr ⟨p, hp, rfl⟩, hname⟩

theorem Signature.Legible.written : ∀ type ∈ s.unflagged.written, type.Legible := by
  simp only [Signature.written, Signature.unflagged, List.mem_append, List.mem_filterMap,
    Option.mem_toList, Option.map_eq_some_iff, List.mem_cons, List.mem_map]
  rintro type ((⟨p, hp, ht⟩ | ⟨_, ⟨p, hp, rfl⟩ | ⟨p, hp, rfl⟩, ht⟩) | rfl | ⟨m, hm, rfl⟩ | ht)
  · unfold Parameter.hint? at ht
    split at ht
    · cases ht
    · obtain rfl := Option.some.inj ht
      exact (h.params p hp).2
  · exact (h.star p hp).element type ht
  · exact (h.doubleStar p hp).element type ht
  · exact h.returns
  · exact (h.mutators m hm).1
  · exact (h.exceptions type ht).1

theorem Signature.Legible.told {names : Names} (hn : names.Standard []) :
    s.unflagged.Told names nestingLimit where
  types type ht := by
    have hlegible := h.written type ht
    exact ⟨(hlegible.printable.restored hn).readsBack, hlegible.nesting⟩
  exceptions type ht he := by
    obtain ⟨hlegible, hne⟩ := h.exceptions type ht
    have htype := Convert.resolve_of_expr (hlegible.printable.restored hn).readsBack he
    rw [hn.resolve_builtin rfl] at htype
    exact hne htype.symm

end

theorem StubFunction.Legible.shaped {f : StubFunction} (h : f.Legible) : f.unflagged.Shaped where
  name := h.name.identifier
  native he := by
    obtain ⟨hs, hk⟩ := h.native he
    exact ⟨by rw [StubFunction.unflagged, hs]; rfl, hk⟩
  overloads he := by simpa [StubFunction.unflagged] using h.overloads he
  allocator := h.allocator
  signatures := by
    rw [StubFunction.unflagged, List.forall_mem_map]
    exact fun s hs => (h.signatures s hs).shaped

theorem StubFunction.Legible.printable {f : StubFunction} (h : f.Legible) :
    ∀ type ∈ f.unflagged.types, type.Printable [] := by
  intro type ht
  obtain ⟨_, hs, ht⟩ := List.mem_flatMap.mp ht
  obtain ⟨s, hin, rfl⟩ := List.mem_map.mp hs
  exact (h.signatures s hin).printable type ht

-- A function needs what its types need.
theorem StubFunction.Needs.type {home : Text} {f : StubFunction} {use : Use} (h : f.Needs home use) :
    ∃ t ∈ f.types, t.Needs home use := by
  obtain ⟨-, hs, h⟩ := h
  suffices htype : ∃ t ∈ Signature.types _, t.Needs home use from
    htype.imp fun t ⟨ht, hneeds⟩ => ⟨List.mem_flatMap_of_mem hs ht, hneeds⟩
  simp only [Signature.types, List.mem_append, List.mem_map, List.mem_singleton, Option.mem_toList]
  cases h with
  | param hp _ h => exact ⟨_, .inl (.inl (.inl (.inl (.inl ⟨_, hp, rfl⟩)))), h⟩
  | star hp _ h =>
      rcases hp with hp | hp
      · exact ⟨_, .inl (.inl (.inl (.inl (.inr ⟨_, hp, rfl⟩)))), h⟩
      · exact ⟨_, .inl (.inl (.inl (.inr ⟨_, hp, rfl⟩))), h⟩
  | returns h => exact ⟨_, .inl (.inl (.inr rfl)), h⟩
  | raises ht h => exact ⟨_, .inl (.inr ht), h⟩

namespace Print

-- The flags of a star parameter are not printed.
theorem function_unflagged (home : Text) (f : StubFunction) :
    function home f.unflagged = function home f := by
  have hparameters : ∀ s : Signature, parameters home s.unflagged = parameters home s := by
    intro s
    unfold parameters
    dsimp only [Signature.unflagged]
    rw [Option.map_map, Option.map_map]
    rfl
  have hsignatures : f.unflagged.signatures.map (signature home f.name f.kind) =
      f.signatures.map (signature home f.name f.kind) := by
    rw [StubFunction.unflagged, List.map_map]
    refine List.map_congr_left fun s _ => ?_
    rw [Function.comp_apply, signature, signature, hparameters]
    rfl
  rw [function, function, ← hsignatures]
  rfl

end Print

namespace Load

-- The module of one function.
def single (home : Text) (f : StubFunction) : StubModule := ⟨home, [], [], [], [], [f]⟩

section

variable {home : Text} {f : StubFunction} (h : f.Legible)

include h

theorem known_single {use : Use} (hu : (single home f.unflagged).Needs use) : use.Known := by
  cases hu with
  | function hf hneeds =>
      obtain rfl := List.mem_singleton.mp hf
      obtain ⟨type, ht, hneeds⟩ := hneeds.type
      exact known_type type (h.printable type ht) use (mem_uses_type.mpr hneeds)
  | _ => simp_all [single]

-- The imports of the module bring no names but built-in ones.
theorem standard_single : (single home f.unflagged).namesAfter.Standard [] := by
  have hnames : (single home f.unflagged).namesAfter =
      { Names.empty true with imports := ((single home f.unflagged).typingNames.map
        fun word => (word, "typing" ++ '.' :: word)).reverse ++ [] } :=
    Names.importTyping_eq _ _
  rw [hnames]
  refine ⟨rfl, rfl, rfl, by simp, fun pair hp => ?_⟩
  simp only [List.append_nil, List.mem_reverse, List.mem_map] at hp
  obtain ⟨word, hword, rfl⟩ := hp
  exact (known_single h (StubModule.needs_of_typingNames hword)).2

theorem told_single : (single home f.unflagged).Told where
  imports use hu := by
    have hknown := known_single h hu
    cases use with
    | typing => exact hknown.1.identifier
    | module => exact PlainName.dotted hknown
  aliases := trivial
  constants := by simp [single]
  typeVariables := by simp [single]
  classes := by simp [single]
  functions := by
    simp only [single, List.forall_mem_singleton]
    rw [StubFunction.unflagged, List.forall_mem_map]
    exact fun s hs => (h.signatures s hs).told (standard_single h)

theorem load_written {digest : Hasher} (hsized : digest.Sized) (target : Target)
    (filename : Option Text) {name : Text}
    (hname : digest.hex (Print.module (single home f)) = .ok name) :
    load digest ⟨none, target, filename⟩ (Print.module (single home f)) =
      .ok (single name f.unflagged) := by
  have hs : (single home f.unflagged).Shaped Ty.Canonical := {
    aliases := by simp [single]
    constants := by simp [single]
    typeVariables := by simp [single]
    classes := ⟨[], .none, rfl, by simp, by simp [Convert.Holds, Records.none]⟩
    functions := by
      simp only [single, List.forall_mem_singleton]
      exact ⟨h.shaped, fun type ht =>
        ((h.printable type ht).restored Names.standard_builtins).canonical⟩ }
  have hd : Distinct (single home f.unflagged) := ⟨by simp [single, Unique.topLevelNames],
    by simp [single]⟩
  have htext : Print.module (single home f.unflagged) = Print.module (single home f) := by
    simp only [single, Print.module, sections, List.map_cons, List.map_nil, function_unflagged]
  have hload := load_text hs hd (told_single h) hsized (by simp [single]) target filename
    (htext ▸ hname)
  have hback : f.unflagged.noneLast = f.unflagged := StubFunction.noneLast_eq fun type ht =>
    ((h.printable type ht).restored Names.standard_builtins).noneLast
  rw [htext] at hload
  rw [hload]
  simp [single, StubModule.noneLast, hback]

end

-- To load the text of a module of one function, where it has a digest, gives a module of that
-- function alone. Only the flags of star parameters, for which the text has no place, are gone.
theorem load_function {digest : Hasher} (hsized : digest.Sized) (home : Text) (f : StubFunction)
    (h : f.Legible) (target : Target) (filename : Option Text) {bytes : List UInt8}
    (hd : digest (Print.module ⟨home, [], [], [], [], [f]⟩) = .ok bytes) :
    let source := Print.module ⟨home, [], [], [], [], [f]⟩
    load digest ⟨none, target, filename⟩ source =
        .ok ⟨Digest.hex bytes, [], [], [], [], [f.unflagged]⟩ ∧
      (f.Unflagged → load digest ⟨none, target, filename⟩ source =
        .ok ⟨Digest.hex bytes, [], [], [], [], [f]⟩) := by
  intro source
  have hwritten : load digest ⟨none, target, filename⟩ source = _ :=
    load_written h hsized target filename (Hasher.hex_eq_ok.mpr ⟨bytes, hd, rfl⟩)
  refine ⟨hwritten, fun hf => ?_⟩
  rw [hwritten, hf.eq]
  rfl

-- A static method with overloads, all kinds of parameters, and a body.
theorem load_function_overloads :
    let int : Ty := .named "int"
    let first : Signature := {
      params := [⟨"x", .generic (.named "list") [int], true, false⟩,
        ⟨"y", .named "object", false, true⟩]
      starArgs := some ⟨"args", .generic (.named "tuple") [.named "a.B"], false, false⟩
      starStarArgs := some ⟨"kwargs", .named "dict", false, false⟩
      returns := .union [int, .named "NoneType"]
      exceptions := [.named "ValueError"]
      mutators := [⟨"x", .named "str"⟩] }
    let second : Signature := ⟨[], none, none, .nothing, [], []⟩
    let f : StubFunction := ⟨"f", [first, second], .staticMethod, false⟩
    let source : Text := "import a\nfrom typing import List, Optional, Tuple\n\n@staticmethod\n" ++
      "def f(x: List[int] = ..., *args: a.B, y, **kwargs) -> Optional[int]:\n    x := str\n" ++
      "    raise ValueError()\n@staticmethod\ndef f() -> nothing: ..."
    f.Legible ∧ f.Unflagged ∧ Print.module ⟨"m", [], [], [], [], [f]⟩ = source ∧
      load Digest.md5 ⟨none, .standard, none⟩ (Print.module ⟨"m", [], [], [], [], [f]⟩) =
        .ok ⟨Digest.hex (Digest.md5Bytes (Print.module ⟨"m", [], [], [], [], [f]⟩)), [], [], [], [],
          [f]⟩ := by
  intro int first second f source
  have hword : ∀ word ∈ (["int", "object", "list", "ValueError", "str"] : List Text),
      (Ty.named word).PrintableAtom [] := by
    have hplain : ∀ word ∈ (["int", "object", "list", "ValueError", "str"] : List Text),
        PlainWord word ∧ word ∉ fixedNames ∧ Builtin.ofName? word = none ∧
          Text.after? "typing." word = none := by decide
    intro word hm
    obtain ⟨hp, hf, hb, ht⟩ := hplain word hm
    exact Ty.printableAtom_word hp hf hb ht
  have hlist : (Ty.generic (.named "list") [int]).Legible := by
    refine ⟨⟨⟨hword "int" (by simp), trivial⟩, .inr (.inr ⟨hword "list" (by simp), ?_⟩)⟩, by decide⟩
    exact ⟨by simp, by simp, by simp⟩
  have hdotted : (Ty.named "a.B").Legible := by
    refine Ty.PrintableAtom.legible (.inr (.inr ⟨?_, by simp, by decide, rfl, rfl⟩))
    exact .cons (by decide : PlainWord "a") (.single (by decide))
  have hoptional : (Ty.union [int, .named "NoneType"]).Legible :=
    ⟨⟨by decide, by simp [int], by decide, by simp [int], hword "int" (by simp), .inl rfl, trivial⟩,
      by decide⟩
  have hfirst : first.Legible := {
    params := by
      simp only [first, List.forall_mem_cons]
      exact ⟨⟨by decide, hlist⟩, ⟨by decide, (hword "object" (by simp)).legible⟩, by simp⟩
    keywordsLast := ⟨[⟨"x", .generic (.named "list") [int], true, false⟩],
      [⟨"y", .named "object", false, true⟩], rfl, by simp, by simp⟩
    star := by
      rintro p ⟨⟩
      exact ⟨by decide, .inr ⟨_, hdotted, rfl⟩⟩
    doubleStar := by
      rintro p ⟨⟩
      exact ⟨by decide, .inl rfl⟩
    returns := hoptional
    exceptions := by
      simp only [first, List.forall_mem_singleton]
      exact ⟨(hword "ValueError" (by simp)).legible, by simp⟩
    mutators := by
      simp only [first, List.forall_mem_singleton]
      exact ⟨(hword "str" (by simp)).legible, _,
        List.mem_append_left _ (List.mem_append_left _ List.mem_cons_self), rfl⟩ }
  have hnothing : Ty.Legible .nothing := Ty.PrintableAtom.legible trivial
  have hsecond : second.Legible :=
    ⟨by simp [second], ⟨[], [], rfl, by simp, by simp⟩, by simp [second], by simp [second], hnothing,
      by simp [second], by simp [second]⟩
  have hlegible : f.Legible := {
    name := by decide
    native := by simp [f]
    overloads := by simp [f]
    allocator := fun _ _ => rfl
    signatures := by
      simp only [f, List.forall_mem_cons]
      exact ⟨hfirst, hsecond, by simp⟩ }
  have hunflagged : f.Unflagged := by
    simp only [StubFunction.Unflagged, f, List.forall_mem_cons]
    refine ⟨?_, by simp [second], by simp⟩
    rintro p hp
    rcases List.mem_pair.mp hp with rfl | rfl <;> exact ⟨rfl, rfl⟩
  refine ⟨hlegible, hunflagged, ?_, ?_⟩
  · decide +kernel
  · exact (load_function Digest.sized_md5 "m" f hlegible .standard none rfl).2 hunflagged

-- A star parameter that has a default is read back without it.
theorem load_function_flagged :
    let star : Parameter := ⟨"args", .named "tuple", true, false⟩
    let f : StubFunction := ⟨"f", [⟨[], some star, none, .nothing, [], []⟩], .method, false⟩
    f.Legible ∧ Print.module ⟨"m", [], [], [], [], [f]⟩ = "def f(*args) -> nothing: ..." ∧
      ∃ m, load Digest.md5 ⟨none, .standard, none⟩ (Print.module ⟨"m", [], [], [], [], [f]⟩) = .ok m ∧
        m.functions ≠ [f] := by
  intro star f
  have hnothing : Ty.Legible .nothing := Ty.PrintableAtom.legible trivial
  have hlegible : f.Legible := {
    name := by decide
    native := by simp [f]
    overloads := by simp [f]
    allocator := fun _ h => absurd h (by decide)
    signatures := by
      simp only [f, List.forall_mem_singleton]
      refine ⟨by simp, ⟨[], [], rfl, by simp, by simp⟩, ?_, by simp, hnothing, by simp, by simp⟩
      rintro p ⟨⟩
      exact ⟨by decide, .inl rfl⟩ }
  refine ⟨hlegible, by decide +kernel, _, load_written hlegible Digest.sized_md5 .standard none rfl, ?_⟩
  simp [single, StubFunction.unflagged, Signature.unflagged, Parameter.unflagged,
    Build.plainParameter, f, star]

end Load

end TypeStub
