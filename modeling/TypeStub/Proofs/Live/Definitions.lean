import TypeStub.Proofs.Build.Declare
import TypeStub.Proofs.Live.Classes
import TypeStub.Proofs.Merge.Members

-- What live statements build, one after another, each in the state that the one before it leaves.
namespace TypeStub.Live

open Declare

def definedName? : Stmt → Option Text
  | .definition _ d => some d.name
  | _ => none

def assignedName? : Stmt → Option Text
  | .assign _ target _ => some target
  | _ => none

-- The names of the definitions at the top level of a body.
def definedNames (body : List Stmt) : List Text := body.filterMap definedName?

def assignedNames (body : List Stmt) : List Text := body.filterMap assignedName?

-- The type of a constant of a class: its own, or that of the earlier constant that is its value.
def assignedType? (before : List Constant) : Declared → Option Ty
  | .constant type => some type
  | .synonym value => copiedType? before value

-- The constants that the assignments of a class body make after some others, and its definitions.
inductive ClassRuns : BuildState → List Constant → List Stmt → List Constant → List Definition →
    BuildState → Prop
  | nil (state : BuildState) (before : List Constant) : ClassRuns state before [] [] [] state
  | definition {state next last : BuildState} {before assigned : List Constant} {place : Place}
      {d : Def} {definition : Definition} {rest : List Stmt} {defs : List Definition}
      (hd : Build.definition place.line d state = .ok definition next)
      (hr : ClassRuns next before rest assigned defs last) :
      ClassRuns state before (.definition place d :: rest) assigned (definition :: defs) last
  | assign {state next last : BuildState} {before constants : List Constant} {place : Place}
      {target : Text} {assigned : Assigned} {given : Declared} {type : Ty} {rest : List Stmt}
      {defs : List Definition} (hd : declared place.line assigned state = .ok given next)
      (ht : assignedType? before given = some type)
      (hr : ClassRuns next (before ++ [⟨target, type⟩]) rest constants defs last) :
      ClassRuns state before (.assign place target assigned :: rest) (⟨target, type⟩ :: constants)
        defs last

theorem definition_name {line : Int32} {d : Def} {definition : Definition}
    {state next : BuildState} (h : Build.definition line d state = .ok definition next) :
    definition.name = d.name := by
  obtain ⟨decorator, middle, -, hrest⟩ := run_bind_ok h
  cases hbody : d.body with
  | external =>
      simp only [hbody] at hrest
      obtain ⟨rfl, -⟩ := (EStateM.Result.ok.injEq ..).mp hrest
      rfl
  | declared params returns raises mutators =>
      simp only [hbody] at hrest
      obtain ⟨signature, after, -, hlast⟩ := run_bind_ok hrest
      obtain ⟨rfl, -⟩ := (EStateM.Result.ok.injEq ..).mp hlast
      rfl

section

variable {state last : BuildState} {before assigned : List Constant} {body : List Stmt}
  {defs : List Definition}

theorem ClassRuns.names (h : ClassRuns state before body assigned defs last) :
    defs.map (·.name) = definedNames body ∧ assigned.map (·.name) = assignedNames body := by
  induction h with
  | nil _ _ => exact ⟨rfl, rfl⟩
  | definition hd _ ih => exact ⟨congrArg₂ List.cons (definition_name hd) ih.1, ih.2⟩
  | assign _ _ _ ih => exact ⟨ih.1, congrArg₂ List.cons rfl ih.2⟩

theorem fault_ne_ok {α : Type} {line : Int32} {cause : Cause} {a : α} :
    Build.fault line cause state ≠ .ok a last :=
  show EStateM.Result.error _ state ≠ .ok a last by simp

-- A class body has definitions and assignments only.
theorem classStatement_ok {line : Int32} {scan scan' : ClassScan} {statement : Stmt}
    (h : classStatement line scan statement state = .ok scan' last) :
    (∃ place d definition, statement = .definition place d ∧
      Build.definition place.line d state = .ok definition last ∧
      scan' = { scan with definitions := scan.definitions ++ [definition] }) ∨
    (∃ place target assigned given type, statement = .assign place target assigned ∧
      declared place.line assigned state = .ok given last ∧
      assignedType? scan.constants given = some type ∧
      scan' = { scan with constants := scan.constants ++ [⟨target, type⟩] }) := by
  unfold classStatement at h
  split at h
  · obtain ⟨definition, middle, hd, hlast⟩ := run_bind_ok h
    obtain ⟨rfl, rfl⟩ := (EStateM.Result.ok.injEq ..).mp hlast
    exact .inl ⟨_, _, definition, rfl, hd, rfl⟩
  · obtain ⟨given, middle, hd, hrest⟩ := run_bind_ok h
    cases given with
    | constant type =>
        obtain ⟨rfl, rfl⟩ := (EStateM.Result.ok.injEq ..).mp hrest
        exact .inr ⟨_, _, _, _, type, rfl, hd, rfl, rfl⟩
    | synonym value =>
        cases ht : copiedType? scan.constants value with
        | none =>
            simp only [ht] at hrest
            exact absurd hrest fault_ne_ok
        | some type =>
            simp only [ht] at hrest
            obtain ⟨rfl, rfl⟩ := (EStateM.Result.ok.injEq ..).mp hrest
            exact .inr ⟨_, _, _, _, type, rfl, hd, ht, rfl⟩
  · exact absurd h fault_ne_ok

theorem classMember_eq_classStatement {line : Int32} {path : Path} {scan : ClassScan}
    {statement : Stmt} (h : reachedStmt target path statement = []) :
    classMember [] line path scan statement = classStatement line scan statement := by
  cases statement with
  | conditional place isElif condition thenBody elseBody => simp [reachedStmt] at h
  | _ => rfl

theorem classBody_eq_foldlM {line : Int32} {path : Path} {position : Nat} {scan : ClassScan}
    (hflat : reached target path position body = []) :
    classBody [] line path position scan body = body.foldlM (classStatement line) scan := by
  induction body generalizing position scan with
  | nil => rfl
  | cons statement rest ih =>
      obtain ⟨hstatement, hrest⟩ := List.append_eq_nil_iff.mp hflat
      rw [classBody, classMember_eq_classStatement hstatement, List.foldlM_cons]
      exact bind_congr fun scan => ih hrest

theorem classRuns_of_classBody {line : Int32} {path : Path} {position : Nat} {scan scan' : ClassScan}
    (hflat : reached target path position body = [])
    (h : classBody [] line path position scan body state = .ok scan' last) :
    ∃ assigned defs, ClassRuns state scan.constants body assigned defs last ∧
      scan' = ⟨scan.constants ++ assigned, scan.definitions ++ defs⟩ := by
  induction body generalizing state position scan with
  | nil =>
      obtain ⟨rfl, rfl⟩ := (EStateM.Result.ok.injEq ..).mp h
      exact ⟨[], [], .nil _ _, by simp⟩
  | cons statement rest ih =>
      obtain ⟨hstatement, hrest⟩ := List.append_eq_nil_iff.mp hflat
      rw [classBody] at h
      obtain ⟨middle, next, hstep, htail⟩ := run_bind_ok h
      rw [classMember_eq_classStatement hstatement] at hstep
      obtain ⟨assigned, defs, hruns, rfl⟩ := ih hrest htail
      rcases classStatement_ok hstep with
        ⟨place, d, definition, rfl, hd, rfl⟩ | ⟨place, target, given, found, type, rfl, hd, ht, rfl⟩
      · exact ⟨_, _, .definition hd hruns, by simp⟩
      · exact ⟨_, _, .assign hd ht hruns, by simp⟩

end

-- What the statement of a class makes of its arguments and its body. The constants that the body
-- assigns come first and the properties last; the definitions merge as members.
structure MakesClass (line : Int32) (args : List ClassArg) (body : List Stmt)
    (state : BuildState) (assigned properties : List Constant) (defs : List Definition)
    (c : StubClass) (last : BuildState) : Prop where
  runs : ∃ inside, args.foldlM (classArgument line) ⟨[], none⟩ state =
    .ok ⟨c.parents, c.metaclass⟩ inside ∧ ClassRuns inside [] body assigned defs last
  definedNames : defs.map (·.name) = definedNames body
  assignedNames : assigned.map (·.name) = assignedNames body
  constants : c.constants = assigned ++ properties
  members : Merge.Members defs c.methods properties
  interleaved : ∀ defs', Merge.Interleaved defs defs' →
    ∃ members, Merge.classMembers (some line.toInt) defs' = .ok members ∧
      (members.filterMap Merge.Member.method?).Perm c.methods ∧
      (members.filterMap Merge.Member.property?).Perm properties ∧
      (Merge.SameOrder defs defs' → members.filterMap Merge.Member.method? = c.methods ∧
        members.filterMap Merge.Member.property? = properties)

-- What the live statements of a module build: definitions and classes.
inductive Runs : BuildState → List Stmt → List Definition → List StubClass → BuildState → Prop
  | nil (state : BuildState) : Runs state [] [] [] state
  | definition {state next last : BuildState} {place : Place} {d : Def} {definition : Definition}
      {rest : List Stmt} {defs : List Definition} {classes : List StubClass}
      (hd : Build.definition place.line d state = .ok definition next)
      (hr : Runs next rest defs classes last) :
      Runs state (.definition place d :: rest) (definition :: defs) classes last
  | classDef {state next last : BuildState} {place : Place} {name : Text} {args : List ClassArg}
      {body rest : List Stmt} {assigned properties : List Constant} {inner defs : List Definition}
      {c : StubClass} {classes : List StubClass} (hn : c.name = name)
      (hc : MakesClass place.line args body state assigned properties inner c next)
      (hr : Runs next rest defs classes last) :
      Runs state (.classDef place name args body :: rest) defs (c :: classes) last
  | simple {state next last : BuildState} {statement : Stmt} {items : List Item} {rest : List Stmt}
      {defs : List Definition} {classes : List StubClass} (hs : isSimple statement = true)
      (hi : liveItems statement state = .ok items next)
      (hr : Runs next rest defs classes last) : Runs state (statement :: rest) defs classes last

section

variable {state last : BuildState} {live : List Stmt} {defs : List Definition}
  {classes : List StubClass}

theorem Runs.definedNames (h : Runs state live defs classes last) :
    defs.map (·.name) = definedNames live := by
  induction h with
  | nil _ => rfl
  | definition hd _ ih => exact congrArg₂ List.cons (definition_name hd) ih
  | classDef _ _ _ ih => exact ih
  | @simple _ _ _ statement _ _ _ _ hs _ _ ih =>
      have hnone : definedName? statement = none := by cases statement <;> trivial
      rw [ih, Live.definedNames, Live.definedNames, List.filterMap_cons_none hnone]

theorem makesClass_of_classOf {line : Int32} {name : Text} {args : List ClassArg} {body : List Stmt}
    {path : Path} {c : StubClass} (hflat : reached target path 0 body = [])
    (h : classOf line name args (classBody [] line path 0 ⟨[], []⟩ body) state = .ok c last) :
    c.name = name ∧ ∃ assigned properties defs,
      MakesClass line args body state assigned properties defs c last := by
  obtain ⟨heritage, inside, hargs, hrest⟩ := run_bind_ok h
  obtain ⟨scan, after, hscan, hrest⟩ := run_bind_ok hrest
  obtain ⟨members, unchanged, hmerged, hlast⟩ := run_bind_ok hrest
  obtain ⟨hmembers, rfl⟩ := merged_ok hmerged
  obtain ⟨rfl, rfl⟩ := (EStateM.Result.ok.injEq ..).mp hlast
  obtain ⟨assigned, defs, hruns, rfl⟩ := classRuns_of_classBody hflat hscan
  obtain ⟨hdefined, hassigned⟩ := hruns.names
  refine ⟨rfl, assigned, members.filterMap Merge.Member.property?, defs, ⟨inside, hargs, hruns⟩,
    hdefined, hassigned, rfl, Merge.members_of_classMembers hmembers, fun defs' hi => ?_⟩
  obtain ⟨members', hm', hperm, hsame⟩ := Merge.classMembers_interleaved hi hmembers
  refine ⟨members', hm', hperm.filterMap _, hperm.filterMap _, fun ho => ?_⟩
  rw [hsame ho]
  exact ⟨rfl, rfl⟩

theorem runs_of_moduleBody {path : Path} {position : Nat} {items : List Item}
    (hflat : reached target path position live = [])
    (h : moduleBody [] path position live state = .ok items last) :
    Runs state live (items.filterMap Item.definition?) (items.filterMap Item.class?) last := by
  induction live generalizing state position items with
  | nil =>
      obtain ⟨rfl, rfl⟩ := (EStateM.Result.ok.injEq ..).mp h
      exact .nil _
  | cons statement rest ih =>
      obtain ⟨hstatement, hrest⟩ := List.append_eq_nil_iff.mp hflat
      rw [moduleBody] at h
      obtain ⟨first, next, hstep, htail⟩ := run_bind_ok h
      obtain ⟨more, after, hmore, hlast⟩ := run_bind_ok htail
      obtain ⟨rfl, rfl⟩ := (EStateM.Result.ok.injEq ..).mp hlast
      have hruns := ih hrest hmore
      rw [List.filterMap_append, List.filterMap_append]
      cases statement with
      | conditional place isElif condition thenBody elseBody => simp [reachedStmt] at hstatement
      | definition place d =>
          obtain ⟨definition, middle, hd, hone⟩ := run_bind_ok hstep
          obtain ⟨rfl, rfl⟩ := (EStateM.Result.ok.injEq ..).mp hone
          exact .definition hd hruns
      | classDef place name args body =>
          obtain ⟨c, middle, hc, hone⟩ := run_bind_ok hstep
          obtain ⟨rfl, rfl⟩ := (EStateM.Result.ok.injEq ..).mp hone
          obtain ⟨hname, assigned, properties, defs, hmakes⟩ := makesClass_of_classOf hstatement hc
          exact .classDef hname hmakes hruns
      | _ =>
          have hplain := (ensures_plain [] (position :: path) rfl trivial hstep).1
          rw [List.filterMap_eq_nil_iff.mpr fun item hm => (hplain item hm).picks_none.2.1,
            List.filterMap_eq_nil_iff.mpr fun item hm => (hplain item hm).picks_none.2.2]
          exact .simple rfl hstep hruns

end

end TypeStub.Live
