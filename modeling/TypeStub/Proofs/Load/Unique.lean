import Mathlib.Data.List.Nodup
import TypeStub.Proofs.Live.Definitions
import TypeStub.Proofs.Live.Statements
import TypeStub.Proofs.Load.Outcome
import TypeStub.Proofs.Table.Ordered
import TypeStub.Unique

namespace TypeStub.Unique

theorem mem_repeated {name : Text} {names : List Text} :
    name ∈ repeated names ↔ name ≠ [] ∧ 2 ≤ names.count name := by
  rw [repeated, mem_sortedNames, List.mem_filter]
  constructor
  · rintro ⟨-, h⟩
    simpa [Nat.succ_le_iff] using h
  · rintro ⟨hne, hcount⟩
    have hm : name ∈ names := List.count_pos_iff.mp (by omega)
    exact ⟨hm, by simpa [hne, Nat.succ_le_iff] using hcount⟩

theorem repeated_eq_nil_iff {names : List Text} :
    repeated names = [] ↔ ∀ name, 2 ≤ names.count name → name = [] := by
  rw [List.eq_nil_iff_forall_not_mem]
  refine forall_congr' fun name => ?_
  rw [mem_repeated]
  by_cases hne : name = [] <;> simp [hne]

theorem nodup_of_repeated {names : List Text} (h : repeated names = [])
    (hne : ∀ name ∈ names, name ≠ []) : names.Nodup := by
  refine List.nodup_iff_count_le_one.mpr fun name => ?_
  by_contra hcount
  have hm : name ∈ names := List.count_pos_iff.mp (by omega)
  exact hne name hm (repeated_eq_nil_iff.mp h name (by omega))

-- What a fault says of repeated names: exactly those, in byte order, after the message.
def Reports (message : Text) (isRepeated : Text → Prop) (fault : Fault) : Prop :=
  ∃ reported : List Text, reported ≠ [] ∧ reported.Pairwise (· < ·) ∧
    (∀ name, name ∈ reported ↔ isRepeated name) ∧
    fault.cause.message = message ++ Text.joinWith ", " reported

theorem repeated_pairwise (names : List Text) : (repeated names).Pairwise (· < ·) :=
  pairwise_sortedNames _

theorem classFault?_eq_none_iff {lines : List (Text × Int32)} {c : StubClass} :
    classFault? lines c = none ↔ repeated (memberNames c) = [] := by
  unfold classFault?
  split
  · simp [*]
  · rename_i hne
    simpa using hne

theorem fault?_eq_none_iff {lines : List (Text × Int32)} {m : StubModule} :
    fault? lines m = none ↔ repeated (topLevelNames m) = [] ∧
      ∀ c ∈ m.classes, repeated (memberNames c) = [] := by
  unfold fault?
  split
  · rename_i htop
    rw [List.findSome?_eq_none_iff, htop]
    simp only [classFault?_eq_none_iff, true_and]
  · rename_i hne
    exact ⟨nofun, fun h => absurd h.1 hne⟩

-- The first fault is that of the top level, or else that of the first class that has one.
theorem fault?_eq_some {lines : List (Text × Int32)} {m : StubModule} {fault : Fault}
    (h : fault? lines m = some fault) :
    (repeated (topLevelNames m) ≠ [] ∧
      fault = ⟨.duplicateTopLevel (repeated (topLevelNames m)), none⟩) ∨
    (repeated (topLevelNames m) = [] ∧ ∃ before c after, m.classes = before ++ c :: after ∧
      (∀ b ∈ before, repeated (memberNames b) = []) ∧ repeated (memberNames c) ≠ [] ∧
      fault = ⟨.duplicateMembers (repeated (memberNames c)),
        (lines.lookup c.name).map Int32.toInt⟩) := by
  unfold fault? at h
  split at h
  · rename_i htop
    obtain ⟨before, c, after, hsplit, hc, hbefore⟩ := List.findSome?_eq_some_iff.mp h
    refine .inr ⟨htop, before, c, after, hsplit, fun b hb => ?_, ?_⟩
    · exact classFault?_eq_none_iff.mp (hbefore b hb)
    · unfold classFault? at hc
      split at hc
      · simp at hc
      · rename_i hne
        exact ⟨hne, (Option.some.inj hc).symm⟩
  · rename_i hne
    exact .inl ⟨hne, (Option.some.inj h).symm⟩

end TypeStub.Unique

namespace TypeStub

open TypeStub.Unique TypeStub.Live

theorem Build.kept_any : Build.Kept (fun _ => True) fun _ => True where
  converted names _ := by constructor <;> intros <;> trivial
  imported := fun _ _ _ _ _ _ _ => trivial
  member := fun _ _ _ _ _ => trivial
  plain := fun _ _ => trivial
  anything := trivial
  optional := fun _ _ => trivial
  starred := fun _ _ => trivial
  keyed := fun _ _ => trivial

-- Only a field of a record has an empty name, for it is written as a string.
theorem StubModule.Shaped.topLevel_ne_nil {P : Ty → Prop} {m : StubModule} (h : m.Shaped P) :
    ∀ name ∈ topLevelNames m, name ≠ [] := by
  obtain ⟨declared, records, hsplit, hdeclared, hrecords⟩ := h.classes
  intro name hm
  simp only [topLevelNames, List.mem_append, List.mem_map] at hm
  rcases hm with (((⟨c, hm, rfl⟩ | ⟨f, hm, rfl⟩) | ⟨c, hm, rfl⟩) | ⟨a, hm, rfl⟩) | ⟨v, hm, rfl⟩
  · exact (h.constants c hm).1.ne_nil
  · exact (h.functions f hm).1.name.ne_nil
  · rcases List.mem_append.mp (hsplit ▸ hm) with hm | hm
    · exact (hdeclared c hm).name.ne_nil
    · obtain ⟨inner, he⟩ := (hrecords c hm).1.name
      simp [he]
  · exact (h.aliases a hm).1.ne_nil
  · exact (h.typeVariables v hm).1.ne_nil

theorem StubClass.Shaped.member_ne_nil {P : Ty → Prop} {c : StubClass} (h : c.Shaped P) :
    ∀ name ∈ memberNames c, name ≠ [] := by
  intro name hm
  rcases List.mem_append.mp hm with hm | hm
  · obtain ⟨constant, hin, rfl⟩ := List.mem_map.mp hm
    exact (h.constants constant hin).1.ne_nil
  · obtain ⟨f, hin, rfl⟩ := List.mem_map.mp hm
    exact (h.methods f hin).1.name.ne_nil

theorem topLevelNames_qualify (name : Text) (m : StubModule) :
    topLevelNames (Qualify.module name m) = (topLevelNames m).map (Qualify.qualified name) := by
  simp [topLevelNames, Qualify.module, Function.comp_def]

theorem qualified_injective (module : Text) : Function.Injective (Qualify.qualified module) := by
  intro name other h
  simpa [Qualify.qualified] using h

theorem memberNames_qualify {name : Text} {m : StubModule} {c : StubClass}
    (hc : c ∈ (Qualify.module name m).classes) :
    ∃ c' ∈ m.classes, memberNames c = memberNames c' := by
  obtain ⟨c', hm, rfl⟩ := List.mem_map.mp hc
  refine ⟨c', hm, ?_⟩
  simp [memberNames, Qualify.stubClass, Qualify.constant, Qualify.function, Function.comp_def]

namespace Load

-- No top-level name occurs twice, and no member name of a class but the empty one.
structure Distinct (m : StubModule) : Prop where
  topLevel : (topLevelNames m).Nodup
  members : ∀ c ∈ m.classes, ∀ name, 2 ≤ (memberNames c).count name → name = []

theorem Distinct.qualify {m : StubModule} (h : Distinct m) (request : Request) :
    Distinct (Load.qualify request m) := by
  unfold Load.qualify
  cases request.name with
  | none => exact h
  | some name =>
      refine ⟨?_, fun c hc => ?_⟩
      · rw [topLevelNames_qualify]
        exact h.topLevel.map (qualified_injective name)
      · obtain ⟨c', hm, he⟩ := memberNames_qualify hc
        rw [he]
        exact h.members c' hm

theorem distinct_iff {m : StubModule} (hne : ∀ name ∈ topLevelNames m, name ≠ []) :
    Distinct m ↔ repeated (topLevelNames m) = [] ∧
      ∀ c ∈ m.classes, repeated (memberNames c) = [] := by
  constructor
  · intro h
    refine ⟨repeated_eq_nil_iff.mpr fun name hcount => ?_, fun c hc => ?_⟩
    · have hle := List.nodup_iff_count_le_one.mp h.topLevel name
      omega
    · exact repeated_eq_nil_iff.mpr (h.members c hc)
  · rintro ⟨htop, hmembers⟩
    exact ⟨nodup_of_repeated htop hne, fun c hc => repeated_eq_nil_iff.mp (hmembers c hc)⟩

-- The classes of a module are those of the live class statements, in order, then the records.
structure Declares (live : List Stmt) (built : Declare.Built) (declared records : List StubClass) :
    Prop where
  classes : built.module.classes = declared ++ records
  declared : declared.map (·.name) = (classStatements live).map (·.1)
  lines : built.classLines = classStatements live
  records : ∀ c ∈ records, Convert.IsRecord c

-- The live statements of a source that builds, and the classes that they and the records give.
theorem runs_of_build {name : Text} {target : Target} {source : Text} {body : List Stmt}
    {built : Declare.Built} (hp : parseSource source = .ok body)
    (hb : build name target body = .ok built) :
    ∃ defs declared last,
      Runs ⟨liveNames name target body, .none⟩ (flatten target body) defs declared last ∧
      Declares (flatten target body) built declared last.records.classes := by
  obtain ⟨last, hm⟩ := build_live hb
  obtain ⟨items, functions, hitems, -, hmodule, hlines⟩ := Declare.moduleOf_ok hm
  have hfollows := follows_flatten target [] [] 0 body
  have hstatements := (ensures_classLines_body hfollows trivial hitems).1
  rw [flatten_flatten] at hstatements
  have hrecords := Declare.ensures_moduleBody Build.kept_any _ [] 0
    (areWritten_flatten target (parseSource_areWritten hp))
    ⟨trivial, by simp [Convert.Holds, Records.none]⟩ hitems
  refine ⟨_, _, last, runs_of_moduleBody (reached_flatten target target [] 0 body) hitems,
    ?_, ?_, ?_, ?_⟩
  · rw [hmodule]
  · rw [← hstatements, List.map_filterMap, List.map_filterMap]
    refine List.filterMap_congr fun item _ => ?_
    cases item <;> rfl
  · rw [hlines, hstatements]
  · exact fun c hc => (hrecords.2.2 c hc).1

theorem declares_of_build {name : Text} {target : Target} {source : Text} {body : List Stmt}
    {built : Declare.Built} (hp : parseSource source = .ok body)
    (hb : build name target body = .ok built) :
    ∃ declared records, Declares (flatten target body) built declared records := by
  obtain ⟨defs, declared, last, -, h⟩ := runs_of_build hp hb
  exact ⟨declared, last.records.classes, h⟩

-- The line that is kept under the name of a class is that of its own statement; a record has none.
theorem lookup_classLines {live : List Stmt} {built : Declare.Built}
    {declared records before after : List StubClass} {c : StubClass}
    (h : Declares live built declared records)
    (hn : (built.module.classes.map (·.name)).Nodup)
    (hsplit : built.module.classes = before ++ c :: after) :
    built.classLines.lookup c.name = (classStatements live)[before.length]?.map (·.2) := by
  rw [h.classes, List.map_append, h.declared, List.nodup_append] at hn
  obtain ⟨hkeys, -, hapart⟩ := hn
  have hlength : declared.length = (classStatements live).length := by
    simpa using congrArg List.length h.declared
  have hc : (declared ++ records)[before.length]? = some c := by
    rw [← h.classes, hsplit]
    simp
  rw [h.lines]
  by_cases hlt : before.length < declared.length
  · have hstatement : before.length < (classStatements live).length := by omega
    rw [List.getElem?_append_left hlt] at hc
    have hname := congrArg (fun names => names[before.length]?) h.declared
    simp only [List.getElem?_map, hc, List.getElem?_eq_getElem hstatement, Option.map_some,
      Option.some.injEq] at hname
    rw [List.getElem?_eq_getElem hstatement, Option.map_some, hname]
    exact lookup_of_mem hkeys (List.getElem_mem hstatement)
  · rw [List.getElem?_append_right (by omega)] at hc
    have hrecord := List.mem_of_getElem? hc
    rw [List.getElem?_eq_none (by omega), Option.map_none]
    refine List.lookup_eq_none_iff.mpr fun statement hs => ?_
    have hne := hapart _ (List.mem_map_of_mem hs) _ (List.mem_map_of_mem hrecord)
    simpa using Ne.symm hne

theorem validate_eq_error {built : Declare.Built} {fault : Fault} :
    validate built = .error fault ↔ fault? built.classLines built.module = some fault := by
  unfold validate
  cases fault? built.classLines built.module <;> simp

theorem validate_eq_ok {built : Declare.Built} :
    validate built = .ok () ↔ fault? built.classLines built.module = none := by
  unfold validate
  cases fault? built.classLines built.module <;> simp

theorem built_ne_nil {name : Text} {target : Target} {source : Text} {body : List Stmt}
    {built : Declare.Built} (hp : parseSource source = .ok body)
    (hb : build name target body = .ok built) :
    ∀ top ∈ topLevelNames built.module, top ≠ [] :=
  (shaped_load Build.kept_any (fun _ _ => trivial) hp hb).topLevel_ne_nil

-- The fault of a module that repeats a name: its top level comes first, then its classes in order.
theorem validate_fault {name : Text} {target : Target} {source : Text} {body : List Stmt}
    {built : Declare.Built} {fault : Fault} (hp : parseSource source = .ok body)
    (hb : build name target body = .ok built) (hv : validate built = .error fault) :
    (Reports "Duplicate top-level identifier(s): "
        (fun top => 2 ≤ (topLevelNames built.module).count top) fault ∧ fault.line = none) ∨
    ((topLevelNames built.module).Nodup ∧ ∃ before c after,
      built.module.classes = before ++ c :: after ∧
      (∀ b ∈ before, ∀ member, 2 ≤ (memberNames b).count member → member = []) ∧
      Reports "Duplicate identifier(s): "
        (fun member => member ≠ [] ∧ 2 ≤ (memberNames c).count member) fault ∧
      fault.line = (classStatements (flatten target body))[before.length]?.map
        fun statement => statement.2.toInt) := by
  have hne := built_ne_nil hp hb
  rcases fault?_eq_some (validate_eq_error.mp hv) with
    ⟨htop, rfl⟩ | ⟨htop, before, c, after, hsplit, hbefore, hc, rfl⟩
  · refine .inl ⟨⟨_, htop, repeated_pairwise _, fun top => ?_, rfl⟩, rfl⟩
    refine mem_repeated.trans ⟨And.right, fun hcount => ⟨hne top ?_, hcount⟩⟩
    exact List.count_pos_iff.mp (by omega)
  · have hnodup := nodup_of_repeated htop hne
    refine .inr ⟨hnodup, before, c, after, hsplit, fun b hm => repeated_eq_nil_iff.mp (hbefore b hm),
      ⟨_, hc, repeated_pairwise _, fun member => mem_repeated, rfl⟩, ?_⟩
    obtain ⟨declared, records, hdeclares⟩ := declares_of_build hp hb
    have hclasses : (built.module.classes.map (·.name)).Nodup := by
      simp only [topLevelNames, List.nodup_append] at hnodup
      exact hnodup.1.1.2.1
    dsimp only
    rw [lookup_classLines hdeclares hclasses hsplit, Option.map_map]
    rfl

-- An accepted module repeats no name but an empty member name, under an explicit name too. A module
-- that builds and does is refused with exactly the repeated names, at the class statement's line.
theorem load_distinct (digest : Hasher) (request : Request) (source : Text) :
    (∀ m, load digest request source = .ok m → Distinct m) ∧
    ∀ name body built, moduleName digest request source = .ok name →
      parseSource source = .ok body → build name request.target body = .ok built →
      (validate built = .ok () ↔ Distinct built.module) ∧
      (∃ declared records, Declares (flatten request.target body) built declared records) ∧
      ∀ fault, validate built = .error fault →
        (Reports "Duplicate top-level identifier(s): "
            (fun top => 2 ≤ (topLevelNames built.module).count top) fault ∧ fault.line = none) ∨
        ((topLevelNames built.module).Nodup ∧ ∃ before c after,
          built.module.classes = before ++ c :: after ∧
          (∀ b ∈ before, ∀ member, 2 ≤ (memberNames b).count member → member = []) ∧
          Reports "Duplicate identifier(s): "
            (fun member => member ≠ [] ∧ 2 ≤ (memberNames c).count member) fault ∧
          fault.line = (classStatements (flatten request.target body))[before.length]?.map
            fun statement => statement.2.toInt) := by
  have hvalid : ∀ name body built, parseSource source = .ok body →
      build name request.target body = .ok built →
      (validate built = .ok () ↔ Distinct built.module) := by
    intro name body built hp hb
    rw [validate_eq_ok, fault?_eq_none_iff, distinct_iff (built_ne_nil hp hb)]
  refine ⟨fun m h => ?_, fun name body built _ hp hb => ?_⟩
  · obtain ⟨name, body, built, -, hp, hb, hv, rfl⟩ := load_ok h
    exact ((hvalid name body built hp hb).mp hv).qualify request
  · exact ⟨hvalid name body built hp hb, declares_of_build hp hb, fun fault => validate_fault hp hb⟩

-- Members that repeat a name are reported at the line of their class statement.
theorem load_distinct_members :
    let source : Text := "x: int\nclass A:\n    y: int\n    y: str\n"
    ∃ body built fault, parseSource source = .ok body ∧
      build "m" .standard body = .ok built ∧ validate built = .error fault ∧
      fault.line = some 2 ∧ ¬Distinct built.module := by
  intro source
  have hrun : (parseSource source).toOption.any (fun body =>
      (build "m" .standard body).toOption.any fun built =>
        (fault? built.classLines built.module).any (·.line == some 2)) = true := by
    decide +kernel
  obtain ⟨body, hp, hrun⟩ := (Option.any_eq_true _ _).mp hrun
  obtain ⟨built, hb, hrun⟩ := (Option.any_eq_true _ _).mp hrun
  obtain ⟨fault, hf, hline⟩ := (Option.any_eq_true _ _).mp hrun
  have hp := ok_of_toOption hp
  have hb := ok_of_toOption hb
  have hv := validate_eq_error.mpr hf
  have h := (load_distinct Digest.md5 ⟨some "m", .standard, none⟩ source).2 "m" body built rfl hp hb
  refine ⟨body, built, fault, hp, hb, hv, by simpa using hline, fun hd => ?_⟩
  rw [h.1.mpr hd] at hv
  simp at hv

-- A record that repeats the empty name is accepted, although the name occurs twice in its class.
theorem load_repeats_empty_member :
    ∃ m, load Digest.md5 ⟨none, .standard, none⟩ "x: NamedTuple('A', [('', int), ('', str)])" = .ok m ∧
      ∃ c ∈ m.classes, ¬(memberNames c).Nodup := by
  have hrun : (load Digest.md5 ⟨none, .standard, none⟩
      "x: NamedTuple('A', [('', int), ('', str)])").toOption.any (fun m =>
        m.classes.any fun c => !decide (memberNames c).Nodup) = true := by decide +kernel
  obtain ⟨m, hm, hd⟩ := (Option.any_eq_true _ _).mp hrun
  obtain ⟨c, hc, hd⟩ := List.any_eq_true.mp hd
  exact ⟨m, ok_of_toOption hm, c, hc, by simpa using hd⟩

end Load

end TypeStub
