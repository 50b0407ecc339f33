import TypeStub.Proofs.Grammar.Openings
import TypeStub.Proofs.Live.Faults
import TypeStub.Proofs.Load.Unique

-- Why a source that parses is refused, and at which line.
namespace TypeStub.Load

open TypeStub.Unique TypeStub.Live

-- What a tree is refused for, and the statement that answers for it: the first conditional on the
-- way whose condition has no value, or a statement of live code with something wrong in it. No
-- statement answers for functions that do not merge, for names that the top level repeats and for
-- fields that a record repeats.
inductive Blames (name : Text) (target : Target) (body : List Stmt) : Option Stmt → Cause → Prop
  | condition {before after : List Branching} {b : Branching} {e : ConditionError} {place : Place}
      {isElif : Bool} {thenBody elseBody : List Stmt}
      (hs : reached target [] 0 body = before ++ b :: after)
      (hb : ∀ passed ∈ before, ∃ live, Condition.evaluate target passed.condition = .ok live)
      (he : Condition.evaluate target b.condition = .error e) (hp : place.line = b.line)
      (hm : .conditional place isElif b.condition thenBody elseBody ∈ liveCode target body) :
      Blames name target body (some (.conditional place isElif b.condition thenBody elseBody))
        (.condition e)
  | statement {names : Names} {top inner written : Stmt} {cause : Cause}
      (hc : firstFailure? target body = none)
      (hk : (names, top) ∈ known (liveNames name target body) (flatten target body))
      (hi : inner ∈ top.nested) (hw : written ∈ liveCode target body)
      (hs : written.kind ≠ .ifStmt) (hf : flattenStmt target written = [inner])
      (h : inner.Faulty names cause) : Blames name target body (some written) cause
  | functions {defs : List Definition} {classes : List StubClass} {last : BuildState}
      {cause : Cause} (hc : firstFailure? target body = none)
      (hr : Runs ⟨liveNames name target body, .none⟩ (flatten target body) defs classes last)
      (h : Merge.moduleFunctions defs = .error ⟨cause, none⟩) : Blames name target body none cause
  | topLevel {built : Declare.Built} {repeated : List Text} (hb : build name target body = .ok built)
      (hne : repeated ≠ [])
      (h : ∀ top, top ∈ repeated ↔ 2 ≤ (topLevelNames built.module).count top) :
      Blames name target body none (.duplicateTopLevel repeated)
  | fields {built : Declare.Built} {c : StubClass} {repeated : List Text}
      (hb : build name target body = .ok built) (hm : c ∈ built.module.classes)
      (hc : Convert.IsRecord c) (hne : repeated ≠ [])
      (h : ∀ field, field ∈ repeated ↔ field ≠ [] ∧ 2 ≤ (memberNames c).count field) :
      Blames name target body none (.duplicateMembers repeated)

-- The line at which such a statement is reported.
def lineOf (blamed : Option Stmt) : Option Int :=
  blamed.map fun statement => statement.place.line.toInt

-- A fault that a statement answers for, or none, and that is told at its line.
def Answers (name : Text) (target : Target) (body : List Stmt) (fault : Fault) : Prop :=
  ∃ blamed, fault.line = lineOf blamed ∧ Blames name target body blamed fault.cause

section

variable {name : Text} {target : Target} {body : List Stmt} {fault : Fault}

theorem count_memberNames {line : Int32} {args : List ClassArg} {inner : List Stmt}
    {state last : BuildState} {assigned properties : List Constant} {defs : List Definition}
    {c : StubClass} (h : MakesClass line args inner state assigned properties defs c last)
    (member : Text) : (memberNames c).count member = (memberNamesOf inner).count member := by
  have hperm := h.members.names_perm.count_eq member
  rw [h.definedNames] at hperm
  rw [memberNames, memberNamesOf, h.constants, List.map_append, h.assignedNames, List.append_assoc,
    List.count_append, hperm, List.count_append]

-- A class of the module has the members of the class statement in its place.
theorem members_at {state last : BuildState} {live : List Stmt} {defs : List Definition}
    {classes : List StubClass} (h : Runs state live defs classes last) {i : Nat} {c : StubClass}
    (hi : classes[i]? = some c) :
    ∃ place args inner, .classDef place c.name args inner ∈ live ∧
      (classStatements live)[i]? = some (c.name, place.line) ∧
      ∀ member, (memberNames c).count member = (memberNamesOf inner).count member := by
  induction h generalizing i with
  | nil _ => simp at hi
  | definition hd hr ih =>
      obtain ⟨place, args, inner, hm, hline, hcount⟩ := ih hi
      exact ⟨place, args, inner, List.mem_cons_of_mem _ hm, hline, hcount⟩
  | classDef hn hc hr ih =>
      cases i with
      | zero =>
          obtain rfl := Option.some.inj hi
          obtain rfl := hn
          exact ⟨_, _, _, List.mem_cons_self, rfl, count_memberNames hc⟩
      | succ i =>
          obtain ⟨place, args, inner, hm, hline, hcount⟩ := ih hi
          exact ⟨place, args, inner, List.mem_cons_of_mem _ hm, hline, hcount⟩
  | @simple _ _ _ statement _ rest _ _ hs _ hr ih =>
      obtain ⟨place, args, inner, hm, hline, hcount⟩ := ih hi
      have hnone : classStatement? statement = none := by cases statement <;> trivial
      refine ⟨place, args, inner, List.mem_cons_of_mem _ hm, ?_, hcount⟩
      rw [classStatements, List.filterMap_cons_none hnone]
      exact hline

-- What is wrong with a statement that is left for the target is told at the line at which it is
-- written.
theorem answers_of_known {names : Names} {top inner : Stmt} {cause : Cause}
    (hc : firstFailure? target body = none)
    (hk : (names, top) ∈ known (liveNames name target body) (flatten target body))
    (hi : inner ∈ top.nested) (h : inner.Faulty names cause) :
    Answers name target body (.at inner.place.line cause) := by
  obtain ⟨written, hw, hs, hf⟩ := liveCode_of_mem_flatten
    (Stmt.mem_nestedAll.mpr ⟨top, mem_of_mem_known hk, hi⟩)
  rw [place_of_flattenStmt hs hf]
  exact ⟨some written, rfl, .statement hc hk hi hw hs hf h⟩

theorem answers_build {source : Text} (hp : parseSource source = .ok body)
    (h : build name target body = .error fault) : Answers name target body fault := by
  obtain hscan | ⟨hc, last, hm⟩ := build_error h
  · obtain ⟨before, b, after, e, hsplit, hbefore, he, rfl⟩ := tree_error hscan
    have hb : b ∈ reached target [] 0 body := by simp [hsplit]
    obtain ⟨place, isElif, thenBody, elseBody, hline, hm⟩ := liveCode_of_mem_reached hb
    rw [← hline]
    exact ⟨some _, rfl, .condition hsplit hbefore he hline hm⟩
  have hs := allScoped_flatten target (parseSource_scoped hp)
  obtain ⟨⟨names, top⟩, hk, inner, hi, cause, hf, rfl⟩ | ⟨defs, classes, last, hr, hf⟩ :=
    moduleOf_error (reached_flatten target target [] 0 body) hs hm
  · exact answers_of_known hc hk hi hf
  · have hline := (Merge.faultAt_moduleFunctions hf).line
    obtain ⟨cause, line⟩ := fault
    obtain rfl : line = none := hline
    exact ⟨none, rfl, .functions hc hr hf⟩

-- A class that repeats a member name is that of a class statement, which answers for it, or of a
-- record, which is no statement.
theorem answers_validate {source : Text} {built : Declare.Built} (hp : parseSource source = .ok body)
    (hb : build name target body = .ok built) (h : validate built = .error fault) :
    Answers name target body fault := by
  have hne := built_ne_nil hp hb
  rcases fault?_eq_some (validate_eq_error.mp h) with
    ⟨htop, rfl⟩ | ⟨htop, before, c, after, hsplit, -, hc, rfl⟩
  · refine ⟨none, rfl, .topLevel hb htop fun top => mem_repeated.trans ⟨And.right, fun hcount => ?_⟩⟩
    exact ⟨hne top (List.count_pos_iff.mp (by omega)), hcount⟩
  obtain ⟨defs, declared, last, hruns, hdeclares⟩ := runs_of_build hp hb
  have hclasses : (built.module.classes.map (·.name)).Nodup := by
    have hnodup := nodup_of_repeated htop hne
    simp only [topLevelNames, List.nodup_append] at hnodup
    exact hnodup.1.1.2.1
  rw [lookup_classLines hdeclares hclasses hsplit]
  have hat : (declared ++ last.records.classes)[before.length]? = some c := by
    rw [← hdeclares.classes, hsplit]
    simp
  have hlength : declared.length = (classStatements (flatten target body)).length := by
    simpa using congrArg List.length hdeclares.declared
  by_cases hlt : before.length < declared.length
  · rw [List.getElem?_append_left hlt] at hat
    obtain ⟨place, args, inner, hm, hline, hcount⟩ := members_at hruns hat
    obtain ⟨names, hk⟩ := exists_mem_known (liveNames name target body) hm
    rw [hline]
    refine answers_of_known (firstFailure?_of_build hb) hk (Stmt.self_mem_nested _)
      (.members hc fun member => ?_)
    rw [mem_repeated, hcount]
  · rw [List.getElem?_append_right (by omega)] at hat
    rw [List.getElem?_eq_none (by omega)]
    have hm : c ∈ built.module.classes := by simp [hsplit]
    exact ⟨none, rfl, .fields hb hm (hdeclares.records c (List.mem_of_getElem? hat)) hc
      fun _ => mem_repeated⟩

-- A statement that answers is one of live code.
theorem Blames.live {blamed : Option Stmt} {cause : Cause}
    (h : Blames name target body blamed cause) :
    ∀ statement ∈ blamed, statement ∈ liveCode target body := by
  intro statement hm
  cases h with
  | condition hs hb he hp hlive => exact Option.some.inj hm ▸ hlive
  | statement hc hk hi hw hs hf h => exact Option.some.inj hm ▸ hw
  | functions | topLevel | fields => simp at hm

end

-- A source that parses and is refused is told why, without a column and without its text. The line
-- is that of the statement that answers for it, where there is one: it is live code, and its place is
-- that of its first word, or of the `def` of a definition.
theorem load_blames {digest : Hasher} (request : Request) {source name : Text} {body : List Stmt}
    {d : Diagnostic} (hname : moduleName digest request source = .ok name)
    (hp : parseSource source = .ok body) (h : load digest request source = .error d) :
    ∃ blamed cause,
      d = ⟨cause.message, lineOf blamed, request.filename, none, none⟩ ∧
      Blames name request.target body blamed cause ∧
      ∀ statement ∈ blamed, statement ∈ liveCode request.target body ∧
        statement.OpensIn (tokenize (sourceLines source)) := by
  obtain ⟨fault, rfl, hfault⟩ := load_error hname hp h
  have hanswers : Answers name request.target body fault := by
    obtain hb | ⟨built, hb, hv⟩ := hfault
    · exact answers_build hp hb
    · exact answers_validate hp hb hv
  obtain ⟨blamed, hline, hblames⟩ := hanswers
  refine ⟨blamed, fault.cause, ?_, hblames, fun statement hm => ?_⟩
  · rw [← hline]
    rfl
  · have hlive := hblames.live statement hm
    exact ⟨hlive, parseSource_opened hp statement (nested_of_mem_liveCode hlive)⟩

-- A definition in a branch of a class: the other branch is wrong as well, and goes unsaid.
theorem load_blames_branch :
    let request : Request := ⟨none, .standard, some "a.pyi"⟩
    let source : Text :=
      "x: int\nclass A:\n    if sys.version_info >= (3, 0):\n        def f(self, **k, y): ...\n" ++
      "    else:\n        def f(self, *): ...\n"
    ∃ name body statement cause, Digest.md5.hex source = .ok name ∧
      parseSource source = .ok body ∧
      load Digest.md5 request source =
        .error ⟨"Named arguments must follow bare *", some 6, some "a.pyi", none, none⟩ ∧
      Blames name .standard body (some statement) cause ∧
      statement.place.line = 6 ∧ statement ∈ liveCode .standard body ∧
      statement.OpensIn (tokenize (sourceLines source)) := by
  intro request source
  have hparsed : (parseSource source).toOption.isSome = true := by decide +kernel
  have hrefused : refusal? (load Digest.md5 request source) =
      some ⟨"Named arguments must follow bare *", some 6, some "a.pyi", none, none⟩ := by
    decide +kernel
  obtain ⟨body, hp⟩ := Option.isSome_iff_exists.mp hparsed
  have hp := ok_of_toOption hp
  have h := error_of_refusal? hrefused
  obtain ⟨blamed, cause, he, hblames, hopens⟩ := load_blames request rfl hp h
  have hline : lineOf blamed = some 6 := (congrArg Diagnostic.line he).symm
  obtain ⟨statement, rfl, hplace⟩ := Option.map_eq_some_iff.mp hline
  obtain ⟨hlive, hopen⟩ := hopens statement rfl
  have hsix : statement.place.line = 6 := Int32.toInt_inj.mp (hplace.trans (by decide))
  exact ⟨_, body, statement, cause, rfl, hp, h, hblames, hsix, hlive, hopen⟩

end TypeStub.Load
