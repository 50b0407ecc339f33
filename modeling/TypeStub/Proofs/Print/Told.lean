import TypeStub.Proofs.Build.Declare
import TypeStub.Proofs.Print.Typed
import TypeStub.Proofs.Print.Statements

-- Modules that their text tells.
namespace TypeStub

open Print Grammar

-- The type that is written of a parameter: object goes without.
def Parameter.hint? (p : Parameter) : Option Ty :=
  if p.type.isNamed "object" then none else some p.type

-- The type that is written of a star parameter: the last one in its container.
def Parameter.element? (p : Parameter) : Option Ty :=
  match p.type with
  | .generic _ params => params.getLast?
  | _ => none

-- The types that are written in the text of a signature.
def Signature.written (s : Signature) : List Ty :=
  s.params.filterMap Parameter.hint? ++
    (s.starArgs.toList ++ s.starStarArgs.toList).filterMap Parameter.element? ++
    s.returns :: (s.mutators.map (·.type) ++ s.exceptions)

-- A type that its text tells under such names, but for the place of None, where so many types may
-- be nested.
structure Ty.Told (names : Names) (budget : Nat) (type : Ty) : Prop where
  readsBack : type.ReadsBack names
  nesting : (expr type).nesting ≤ budget

theorem Ty.Told.readableAt {names : Names} {budget : Nat} {type : Ty} (h : type.Told names budget)
    (hc : type.Canonical) : ReadableAt budget (written type) :=
  readableAt_type hc h.readsBack h.nesting

-- To raise a NamedTuple would look like a record.
structure Signature.Told (names : Names) (budget : Nat) (s : Signature) : Prop where
  types : ∀ type ∈ s.written, type.Told names budget
  exceptions : ∀ type ∈ s.exceptions, expr type ≠ .name "NamedTuple"

-- The type comment of a constant must not look like an ignore comment. Only a field of a record
-- has another name than an identifier.
structure Constant.Told (names : Names) (budget : Nat) (c : Constant) : Prop where
  name : Identifier c.name
  type : c.type.Told names budget
  comment : (expr c.type).headName ≠ "ignore"

-- A type variable's name is written as a string too.
structure TypeVariable.Told (names : Names) (v : TypeVariable) : Prop where
  quotable : '\'' ∉ v.name
  constraints : ∀ type ∈ v.constraints, type.Told names nestingLimit

-- The body of a class is a block, which leaves less room for its types.
structure StubClass.Told (names : Names) (c : StubClass) : Prop where
  name : Identifier c.name
  parents : ∀ type ∈ c.parents, type.Told names nestingLimit
  metaclass : ∀ type ∈ c.metaclass, type.Told names nestingLimit
  constants : ∀ constant ∈ c.constants, constant.Told names (nestingLimit - 1)
  methods : ∀ f ∈ c.methods, ∀ s ∈ f.signatures, s.Told names (nestingLimit - 1)

-- An alias that is printed as an import must not look like an import of a typing name.
def Alias.Told (names : Names) (a : Alias) : Prop :=
  match a.imported? with
  | some (source, member) =>
      source ≠ "typing" ∧ (∃ spellings, Grammar.SourceModule source spellings) ∧ Identifier member
  | none => a.target.Told names nestingLimit

-- The names that are known after an alias.
def Alias.bind (names : Names) (a : Alias) : Names :=
  match a.imported? with
  | some (source, member) => names.addImport a.name (source ++ '.' :: member)
  | none => names

-- Aliases are read in order, and those after an import know its name.
def Alias.AllTold : Names → List Alias → Prop
  | _, [] => True
  | names, a :: rest => a.Told names ∧ AllTold (a.bind names) rest

theorem exists_told {names : Names} {aliases : List Alias} (h : Alias.AllTold names aliases) :
    ∀ a ∈ aliases, ∃ known, a.Told known := by
  induction aliases generalizing names with
  | nil => simp
  | cons a rest ih => exact List.forall_mem_cons.mpr ⟨⟨names, h.1⟩, ih h.2⟩

-- A name that can stand in an import statement.
def Use.Importable : Use → Prop
  | .typing name => Identifier name
  | .module name => DottedName name

def Names.importTyping (names : Names) (words : List Text) : Names :=
  words.foldl (fun names word => names.addImport word ("typing" ++ '.' :: word)) names

theorem Names.importTyping_eq (words : List Text) (names : Names) :
    names.importTyping words = { names with
      imports := (words.map fun word => (word, "typing" ++ '.' :: word)).reverse ++
        names.imports } := by
  induction words generalizing names with
  | nil => rfl
  | cons word rest ih =>
      show (names.addImport word ("typing" ++ '.' :: word)).importTyping rest = _
      rw [ih]
      simp [Names.addImport]

namespace StubModule

-- The names of the typing module that are imported where a module is printed.
def typingNames (m : StubModule) : List Text :=
  sortedNames (((sections m).flatten.flatMap (·.uses)).filterMap typingName?)

theorem needs_of_typingNames {m : StubModule} {name : Text} (h : name ∈ m.typingNames) :
    m.Needs (.typing name) := by
  obtain ⟨use, huse, hpick⟩ := List.mem_filterMap.mp (mem_sortedNames.mp h)
  cases use with
  | module => cases hpick
  | typing =>
      obtain rfl := Option.some.inj hpick
      exact mem_uses_sections.mp huse

-- The names that a printed module declares, wherever it does.
def declaredNames (m : StubModule) : Names :=
  ⟨true, (m.classes.map (·.name)).reverse, (m.typeVariables.map (·.name)).reverse, []⟩

-- The names that are known before the first alias of a printed module, and after the last.
def namesBefore (m : StubModule) : Names := m.declaredNames.importTyping m.typingNames

def namesAfter (m : StubModule) : Names := m.aliases.foldl Alias.bind m.namesBefore

-- A module that its text tells: wherever a type is printed, its text stands for it.
structure Told (m : StubModule) : Prop where
  imports : ∀ use, m.Needs use → use.Importable
  aliases : Alias.AllTold m.namesBefore m.aliases
  constants : ∀ c ∈ m.constants, c.Told m.namesAfter nestingLimit
  typeVariables : ∀ v ∈ m.typeVariables, v.Told m.namesAfter
  classes : ∀ c ∈ m.classes, c.Told m.namesAfter
  functions : ∀ f ∈ m.functions, ∀ s ∈ f.signatures, s.Told m.namesAfter nestingLimit

end StubModule

namespace Print

theorem writtenHint_eq (p : Parameter) : writtenHint? p.type = p.hint?.map written := by
  unfold writtenHint? Parameter.hint?
  split <;> rfl

theorem starHint_eq (p : Parameter) : starHint? p = p.element?.map written := by
  unfold starHint? Parameter.element?
  cases p.type <;> rfl

section

variable {s : Signature}

-- A parameter's text is one of four kinds.
theorem mem_paramTexts {p : ParamText} (h : p ∈ paramTexts s) :
    (∃ q ∈ s.params, p = paramText q) ∨ p = .bareStar ∨ (∃ q ∈ s.starArgs, p = starText q) ∨
      ∃ q ∈ s.starStarArgs, p = doubleStarText q := by
  simp only [paramTexts, List.mem_append, List.mem_map, Option.mem_toList,
    Option.map_eq_some_iff] at h
  rcases h with ((⟨q, hq, rfl⟩ | hmarker) | ⟨q, hq, rfl⟩) | ⟨q, hq, rfl⟩
  · exact .inl ⟨q, (List.takeWhile_prefix _).subset hq, rfl⟩
  · split at hmarker
    · obtain ⟨q, hq, rfl⟩ := by simpa using hmarker
      exact .inr (.inr (.inl ⟨q, hq, rfl⟩))
    · cases hs : s.starArgs with
      | none =>
          rw [hs] at hmarker
          exact .inr (.inl (List.mem_singleton.mp hmarker))
      | some q =>
          rw [hs] at hmarker
          exact .inr (.inr (.inl ⟨q, rfl, List.mem_singleton.mp hmarker⟩))
  · exact .inl ⟨q, List.drop_subset _ _ hq, rfl⟩
  · exact .inr (.inr (.inr ⟨q, hq, rfl⟩))

-- What is written in the text of a signature are its written types.
theorem mem_written {w : Written} (hw : w ∈ (defText s).written) :
    ∃ type ∈ s.written, w = written type := by
  have hhint : ∀ {hint : Option Written} {o : Option Ty}, hint = o.map written → w ∈ hint →
      ∃ type ∈ o, w = written type := by
    rintro hint o rfl ho
    obtain ⟨type, ht, rfl⟩ := Option.map_eq_some_iff.mp ho
    exact ⟨type, ht, rfl⟩
  simp only [Signature.written, List.mem_append, List.mem_cons, List.mem_filterMap]
  rcases List.mem_append.mp hw with hw | hw
  · obtain ⟨p, hp, hw⟩ := List.mem_filterMap.mp hw
    rcases mem_paramTexts hp with ⟨q, hq, rfl⟩ | rfl | ⟨q, hq, rfl⟩ | ⟨q, hq, rfl⟩
    · obtain ⟨type, ht, rfl⟩ := hhint (writtenHint_eq q) hw
      exact ⟨type, .inl (.inl ⟨q, hq, ht⟩), rfl⟩
    · cases hw
    · obtain ⟨type, ht, rfl⟩ := hhint (starHint_eq q) hw
      exact ⟨type, .inl (.inr ⟨q, .inl (Option.mem_toList.mpr hq), ht⟩), rfl⟩
    · obtain ⟨type, ht, rfl⟩ := hhint (starHint_eq q) hw
      exact ⟨type, .inl (.inr ⟨q, .inr (Option.mem_toList.mpr hq), ht⟩), rfl⟩
  · rcases List.mem_cons.mp hw with rfl | hw
    · exact ⟨s.returns, .inr (.inl rfl), rfl⟩
    · obtain ⟨l, hl, rfl⟩ := List.mem_map.mp hw
      rcases List.mem_append.mp hl with hl | hl
      · obtain ⟨m, hm, rfl⟩ := List.mem_map.mp hl
        exact ⟨m.type, .inr (.inr (.inl (List.mem_map_of_mem hm))), rfl⟩
      · obtain ⟨type, ht, rfl⟩ := List.mem_map.mp hl
        exact ⟨type, .inr (.inr (.inr ht)), rfl⟩

-- The names in the text of a signature.
theorem identifier_names (h : s.Shaped) {name : Text} (hn : name ∈ (defText s).names) :
    Identifier name := by
  rcases List.mem_append.mp hn with hn | hn
  · obtain ⟨p, hp, hn⟩ := List.mem_filterMap.mp hn
    rcases mem_paramTexts hp with ⟨q, hq, rfl⟩ | rfl | ⟨q, hq, rfl⟩ | ⟨q, hq, rfl⟩
    · obtain rfl := Option.some.inj hn
      exact h.names q hq
    · cases hn
    · obtain rfl := Option.some.inj hn
      exact (h.star q hq).1
    · obtain rfl := Option.some.inj hn
      exact (h.doubleStar q hq).1
  · obtain ⟨l, hl, hn⟩ := List.mem_filterMap.mp hn
    rcases List.mem_append.mp hl with hl | hl
    · obtain ⟨m, hm, rfl⟩ := List.mem_map.mp hl
      obtain rfl := Option.some.inj hn
      obtain ⟨p, hp, hname⟩ := h.mutated m hm
      rw [← hname]
      simp only [List.mem_append, Option.mem_toList] at hp
      rcases hp with (hp | hp) | hp
      · exact h.names p hp
      · exact (h.star p hp).1
      · exact (h.doubleStar p hp).1
    · obtain ⟨type, -, rfl⟩ := List.mem_map.mp hl
      cases hn

end

-- The type of a star parameter has the written one in it.
theorem canonical_written {s : Signature} (h : ∀ type ∈ s.types, type.Canonical) :
    ∀ type ∈ s.written, type.Canonical := by
  have hstar : ∀ p : Parameter, p.type.Canonical → ∀ type ∈ p.element?, type.Canonical := by
    intro p hp type ht
    unfold Parameter.element? at ht
    split at ht
    · rename_i hgeneric
      rw [hgeneric] at hp
      exact hp.of_generic type (List.mem_of_getLast? ht)
    · cases ht
  simp only [Signature.types, List.mem_append, List.mem_map, Option.mem_toList,
    List.mem_singleton] at h
  simp only [Signature.written, List.mem_append, List.mem_filterMap, Option.mem_toList,
    List.mem_cons, List.mem_map]
  rintro type ((⟨p, hp, ht⟩ | ⟨p, hp, ht⟩) | rfl | ⟨m, hm, rfl⟩ | ht)
  · unfold Parameter.hint? at ht
    split at ht
    · cases ht
    · obtain rfl := Option.some.inj ht
      exact h _ (.inl (.inl (.inl (.inl (.inl ⟨p, hp, rfl⟩)))))
  · rcases hp with hp | hp
    · exact hstar p (h _ (.inl (.inl (.inl (.inl (.inr ⟨p, hp, rfl⟩)))))) type ht
    · exact hstar p (h _ (.inl (.inl (.inl (.inr ⟨p, hp, rfl⟩))))) type ht
  · exact h _ (.inl (.inl (.inr rfl)))
  · exact h _ (.inr ⟨m, hm, rfl⟩)
  · exact h _ (.inl (.inr ht))

theorem dottedName_decorators {name : Text} {kind : FunctionKind} {text : Text}
    (h : text ∈ decoratorTexts name kind) : DottedName text := by
  have hwords : ∀ word ∈ (["staticmethod", "classmethod"] : List Text), PlainWord word := by decide
  refine .single (hwords text ?_).identifier
  rcases decoratorTexts_cases name kind with hd | hd | hd <;> rw [hd] at h
  · cases h
  · exact List.mem_cons.mpr (.inl (List.mem_singleton.mp h))
  · exact List.mem_cons_of_mem _ h

section

variable {names : Names} {budget : Nat}

theorem readable_defText {s : Signature} (hs : s.Shaped) (hc : ∀ type ∈ s.written, type.Canonical)
    (h : s.Told names budget) : (defText s).Readable where
  names _ hn := identifier_names hs hn
  types w hw := by
    obtain ⟨type, ht, rfl⟩ := mem_written hw
    exact typed_type type (hc type ht) (h.types type ht).readsBack

theorem plain_defText {s : Signature} (h : s.Told names budget) : (defText s).Plain := by
  intro l hl
  rcases List.mem_append.mp hl with hl | hl
  · obtain ⟨m, -, rfl⟩ := List.mem_map.mp hl
    trivial
  · obtain ⟨type, ht, rfl⟩ := List.mem_map.mp hl
    exact h.exceptions type ht

theorem readable_function {f : StubFunction} (hf : f.Shaped)
    (hc : ∀ s ∈ f.signatures, ∀ type ∈ s.written, type.Canonical)
    (h : ∀ s ∈ f.signatures, s.Told names budget) : ∀ m ∈ functionTexts f, m.Readable budget := by
  intro member hm
  unfold functionTexts at hm
  split at hm
  · obtain rfl := List.mem_singleton.mp hm
    refine ⟨hf.name, by simp, ⟨?_, ?_⟩, trivial, ?_⟩ <;> simp [DefText.names, DefText.written]
  · obtain ⟨s, hs, rfl⟩ := List.mem_map.mp hm
    refine ⟨hf.name, fun text => dottedName_decorators,
      readable_defText (hf.signatures s hs) (hc s hs) (h s hs), plain_defText (h s hs), fun w hw => ?_⟩
    obtain ⟨type, ht, rfl⟩ := mem_written hw
    exact ((h s hs).types type ht).nesting

theorem readable_constant {c : Constant} (h : c.Told names budget) (hc : c.type.Canonical) :
    (constantText c).Readable budget :=
  ⟨h.name, h.type.readableAt hc, h.comment⟩

theorem readable_alias {a : Alias} (hn : Identifier a.name) (hc : a.target.Canonical)
    (h : a.Told names) : (aliasText a).Readable := by
  unfold Alias.Told at h
  unfold aliasText
  cases himported : a.imported? with
  | some pair =>
      rw [himported] at h
      obtain ⟨-, hsource, hmember⟩ := h
      refine ⟨hsource, by simp, ?_⟩
      simp only [List.mem_singleton, forall_eq]
      refine ⟨hmember, fun name hname => ?_⟩
      split at hname
      · cases hname
      · obtain rfl := Option.some.inj hname
        exact hn
  | none =>
      rw [himported] at h
      obtain ⟨_, hbegins⟩ := begins_type hc h.readsBack
      exact ⟨hn, h.readableAt hc, hbegins.isEllipsis⟩

theorem readable_typeVariable {v : TypeVariable} (hn : Identifier v.name)
    (hc : ∀ type ∈ v.constraints, type.Canonical) (h : v.Told names) :
    (typeVariableText v).Readable := by
  refine ⟨hn, h.quotable, ?_⟩
  rw [List.forall_mem_map]
  exact fun type ht => (h.constraints type ht).readableAt (hc type ht)

theorem readable_class {c : StubClass} (hc : c.Shaped Ty.Canonical) (h : c.Told names) :
    (classText c).Readable := by
  refine ⟨h.name, fun arg ha => ?_, fun member hm => ?_⟩
  · rcases List.mem_append.mp ha with ha | ha
    · obtain ⟨type, ht, rfl⟩ := List.mem_map.mp ha
      exact ⟨(h.parents type ht).readableAt (hc.parents type ht).1, by simp⟩
    · simp only [Option.mem_toList, Option.map_eq_some_iff] at ha
      obtain ⟨type, ht, rfl⟩ := ha
      have hword : Identifier "metaclass" := (by decide : PlainWord "metaclass").identifier
      refine ⟨(h.metaclass type ht).readableAt (hc.metaclass type ht), ?_⟩
      rintro word ⟨⟩
      exact hword
  · rcases List.mem_append.mp hm with hm | hm
    · obtain ⟨constant, hin, rfl⟩ := List.mem_map.mp hm
      exact readable_constant (h.constants constant hin) (hc.constants constant hin).2
    · obtain ⟨f, hf, hm⟩ := List.mem_flatMap.mp hm
      obtain ⟨hshaped, htypes⟩ := hc.methods f hf
      refine readable_function hshaped (fun s hs => canonical_written fun type ht => ?_)
        (h.methods f hf) member hm
      exact htypes type (List.mem_flatMap_of_mem hs ht)

end

theorem readable_imports {uses : List Use} (h : ∀ use ∈ uses, use.Importable) :
    ∀ s ∈ importTexts uses, s.Readable := by
  intro s hs
  rcases List.mem_append.mp hs with hs | hs
  · obtain ⟨name, hname, rfl⟩ := List.mem_map.mp hs
    obtain ⟨use, huse, hpick⟩ := List.mem_filterMap.mp (mem_sortedNames.mp hname)
    cases use with
    | typing => cases hpick
    | module =>
        obtain rfl := Option.some.inj hpick
        exact h _ huse
  · split at hs
    · cases hs
    · rename_i hne
      obtain rfl := List.mem_singleton.mp hs
      refine ⟨⟨_, .named (Nat.zero_le 2) ?_⟩, by simpa using hne, ?_⟩
      · exact .single (by decide : PlainWord "typing").identifier
      · rw [List.forall_mem_map]
        intro name hname
        obtain ⟨use, huse, hpick⟩ := List.mem_filterMap.mp (mem_sortedNames.mp hname)
        cases use with
        | module => cases hpick
        | typing =>
            obtain rfl := Option.some.inj hpick
            exact ⟨h _ huse, by simp [memberNamed]⟩

theorem functionTexts_ne_nil {f : StubFunction} (h : f.Shaped) : functionTexts f ≠ [] := by
  unfold functionTexts
  split
  · simp
  · rename_i hexternal
    simpa using h.overloads (Bool.eq_false_iff.mpr hexternal)

section

variable {m : StubModule} (hs : m.Shaped Ty.Canonical) (h : m.Told)

include hs h

-- The classes of records are like those of the stub, once their names can be read.
theorem shaped_classes : ∀ c ∈ m.classes, c.Shaped Ty.Canonical := by
  obtain ⟨declared, records, hsplit, hdeclared, hrecords⟩ := hs.classes
  intro c hc
  have htold := h.classes c hc
  rw [hsplit] at hc
  rcases List.mem_append.mp hc with hc | hc
  · exact hdeclared c hc
  · obtain ⟨hrecord, htypes⟩ := hrecords c hc
    simp only [StubClass.types, List.mem_append, List.mem_map] at htypes
    refine ⟨htold.name, fun type ht => ⟨htypes type (.inl (.inl (.inl ht))), ?_⟩, ?_, ?_, ?_⟩
    · rw [hrecord.parents, List.mem_singleton] at ht
      rw [ht]
      unfold Convert.recordParent
      split <;> simp
    · simp [hrecord.metaclass]
    · intro constant hm
      exact ⟨(htold.constants constant hm).name, htypes _ (.inl (.inr ⟨constant, hm, rfl⟩))⟩
    · simp [hrecord.methods]

theorem readable_module : ∀ s ∈ (moduleTexts m).flatten, s.Readable := by
  have haliases : ∀ a ∈ m.aliases, ∃ names, a.Told names := exists_told h.aliases
  rw [moduleTexts, List.flatten_filter_not_isEmpty]
  simp only [declarationTexts, List.flatten_cons, List.flatten_nil, List.append_nil,
    List.forall_mem_append, List.forall_mem_map]
  refine ⟨readable_imports fun use hu => h.imports use (mem_uses_sections.mp hu), ?_, ?_, ?_, ?_, ?_⟩
  · intro a ha
    obtain ⟨names, htold⟩ := haliases a ha
    exact readable_alias (hs.aliases a ha).1 (hs.aliases a ha).2 htold
  · exact fun c hc => readable_constant (h.constants c hc) (hs.constants c hc).2
  · intro v hv
    exact readable_typeVariable (hs.typeVariables v hv).1 (hs.typeVariables v hv).2
      (h.typeVariables v hv)
  · exact fun c hc => readable_class (shaped_classes hs h c hc) (h.classes c hc)
  · intro member hm
    obtain ⟨f, hf, hm⟩ := List.mem_flatMap.mp hm
    obtain ⟨hshaped, htypes⟩ := hs.functions f hf
    refine readable_function hshaped (fun s hs => canonical_written fun type ht => ?_)
      (h.functions f hf) member hm
    exact htypes type (List.mem_flatMap_of_mem hs ht)

theorem spelled_module (ha : ∀ a ∈ m.aliases, Text.after? (m.name ++ ".") a.name = none) :
    Spelled m where
  aliases := ha
  classes c hc := by
    have hshaped := shaped_classes hs h c hc
    obtain ⟨-, -, hmembers⟩ := readable_class hshaped (h.classes c hc)
    exact ⟨fun f hf => functionTexts_ne_nil (hshaped.methods f hf).1, _, hmembers⟩
  functions f hf := functionTexts_ne_nil (hs.functions f hf).1

-- The text of a module that it tells is parsed as the statements that it is made of.
theorem parseSource_module (ha : ∀ a ∈ m.aliases, Text.after? (m.name ++ ".") a.name = none) :
    ∃ body, parseSource (Print.module m) = .ok body ∧
      List.Forall₂ StmtText.Says (moduleTexts m).flatten body := by
  rw [module_text (spelled_module hs h ha)]
  exact parseSource_sections (by simp [moduleTexts]) (readable_module hs h)

end

end Print

end TypeStub
