import TypeStub.Proofs.Build.Faults
import TypeStub.Proofs.Grammar.Scoped
import TypeStub.Proofs.Live.Declarations
import TypeStub.Proofs.Merge.Faults

-- Why live statements declare no module.
namespace TypeStub

open Declare Build Live

def ClassArg.IsMetaclass (arg : ClassArg) : Prop := arg.keyword = some ("metaclass" : Text)

-- What is wrong with the parents and the keywords of a class: a type, a keyword other than
-- `metaclass`, or an argument after the metaclass.
inductive WrongArguments (names : Names) (args : List ClassArg) : Cause → Prop
  | type {cause : Cause} (h : WrongType names (args.map (·.value)) cause) :
      WrongArguments names args cause
  | keyword {arg : ClassArg} {keyword : Text} (ha : arg ∈ args) (hk : arg.keyword = some keyword)
      (h : keyword ≠ "metaclass") : WrongArguments names args .classKeyword
  | metaclass {before after : List ClassArg} {arg : ClassArg}
      (hs : args = before ++ arg :: after) (hk : arg.IsMetaclass)
      (h : after ≠ []) : WrongArguments names args .metaclassNotLast

-- The numbers that declare nothing.
def Assigned.isNonZero : Assigned → Prop
  | .value (.int n) _ => n ≠ 0
  | .value (.float _) _ => True
  | _ => False

inductive Assigned.Wrong (names : Names) (assigned : Assigned) : Cause → Prop
  | number (h : assigned.isNonZero) : Wrong names assigned .nonZeroNumber
  | type {cause : Cause} (hz : ¬assigned.isNonZero)
      (h : WrongType names (assigned.hints ++ assigned.synonyms) cause) :
      Wrong names assigned cause

-- The names of the members that a class body makes: one for each assignment, and one for all
-- definitions of a name.
def memberNamesOf (body : List Stmt) : List Text :=
  assignedNames body ++ (definedNames body).eraseDups

-- What is wrong with a statement, told at its own line. A class answers for an alias in its body,
-- whose value is no constant of the body before it, and for members that do not merge or share a
-- name.
inductive Stmt.Faulty (names : Names) : Stmt → Cause → Prop
  | definition {place : Place} {d : Def} {cause : Cause} (h : d.Wrong names cause) :
      Faulty names (.definition place d) cause
  | assign {place : Place} {target : Text} {assigned : Assigned} {cause : Cause}
      (h : assigned.Wrong names cause) : Faulty names (.assign place target assigned) cause
  | typeVar {place : Place} {name declaredName : Text} {constraints : List Expr}
      {keywords : List (Text × Expr)} {cause : Cause} (h : WrongType names constraints cause) :
      Faulty names (.typeVar place name declaredName constraints keywords) cause
  | typeVarName {place : Place} {name declaredName : Text} {constraints : List Expr}
      {keywords : List (Text × Expr)} (h : declaredName ≠ name) :
      Faulty names (.typeVar place name declaredName constraints keywords)
        (.typeVarName declaredName name)
  | renamed {place : Place} {modules : List ImportedName} {imported : ImportedName}
      (hm : imported ∈ modules) (h : imported.asName.isSome = true) :
      Faulty names (.importModules place modules) .renamedModule
  | arguments {place : Place} {name : Text} {args : List ClassArg} {body : List Stmt}
      {cause : Cause} (h : WrongArguments names args cause) :
      Faulty names (.classDef place name args body) cause
  | illegalAlias {place inner : Place} {name target : Text} {args : List ClassArg}
      {body before after : List Stmt} {assigned : Assigned} {value : Expr}
      (hb : body = before ++ .assign inner target assigned :: after)
      (hz : ¬assigned.isNonZero) (hv : assigned.synonyms = [value])
      (h : ∀ id, value = .name id → id ∉ assignedNames before) :
      Faulty names (.classDef place name args body) (.classAlias target)
  | merge {place : Place} {name : Text} {args : List ClassArg} {body : List Stmt} {cause : Cause}
      {state last : BuildState} {assigned : List Constant} {defs : List Definition}
      (hn : state.names = names) (hr : ClassRuns state [] body assigned defs last)
      (h : Merge.classMembers (some place.line.toInt) defs = .error (.at place.line cause)) :
      Faulty names (.classDef place name args body) cause
  | members {place : Place} {name : Text} {args : List ClassArg} {body : List Stmt}
      {repeated : List Text} (hne : repeated ≠ [])
      (h : ∀ member, member ∈ repeated ↔
        member ≠ [] ∧ 2 ≤ (memberNamesOf body).count member) :
      Faulty names (.classDef place name args body) (.duplicateMembers repeated)

namespace Live

-- A fault of this statement or of a member of its body, told at the line of that one.
def BlamesIn (names : Names) (statement : Stmt) (fault : Fault) : Prop :=
  ∃ inner ∈ statement.nested, ∃ cause, inner.Faulty names cause ∧
    fault = .at inner.place.line cause

-- A fault of one of these statements, each read with the names that are known at its place.
def BlamesAmong (names : Names) (live : List Stmt) (fault : Fault) : Prop :=
  ∃ place ∈ known names live, BlamesIn place.1 place.2 fault

section

variable {names : Names} {statement : Stmt} {fault : Fault}

theorem blamesIn_self {cause : Cause} (h : statement.Faulty names cause) :
    BlamesIn names statement (.at statement.place.line cause) :=
  ⟨statement, statement.self_mem_nested, cause, h, rfl⟩

-- A build with these names fails with a fault of this statement only.
abbrev FailsIn {α : Type} (names : Names) (statement : Stmt) (p : Build α) : Prop :=
  FailsOnly (fun state => state.names = names) (BlamesIn names statement) p

theorem failsIn_of_failsAt {α : Type} {C : Cause → Prop} {p : Build α} {inner : Stmt}
    (hi : inner ∈ statement.nested) (h : FailsAt names inner.place.line C p)
    (hw : ∀ cause, C cause → inner.Faulty names cause) : FailsIn names statement p :=
  FailsOnly.mono h fun _ ⟨cause, hc, he⟩ => ⟨inner, hi, cause, hw cause hc, he⟩

theorem failsIn_fault {α : Type} {cause : Cause} (h : statement.Faulty names cause) :
    FailsIn names statement (Build.fault statement.place.line cause : Build α) :=
  .throw (blamesIn_self h)

end

section

variable {names : Names} {line : Int32}

theorem failsAt_constantOf (comment : Option Expr) (type : Ty) :
    FailsAt names line (WrongType names comment.toList) (constantOf line comment type) := by
  cases comment with
  | none => exact .pure
  | some e => exact .bindPure (failsAt_typeAt e)

theorem failsAt_declared (assigned : Assigned) :
    FailsAt names line (assigned.Wrong names) (declared line assigned) := by
  have hconstant : ∀ given comment type, given.isConstant = true →
      ¬(Assigned.value given comment).isNonZero →
      FailsAt names line ((Assigned.value given comment).Wrong names)
        (constantOf line comment type) := by
    intro given comment type hg hz
    refine FailsAt.mono (failsAt_constantOf comment type) fun cause hc => ?_
    exact .type hz (hc.mono (by simp [Assigned.hints, Assigned.synonyms, hg]))
  cases assigned with
  | declared hint placeholder =>
      exact .bindPure (FailsAt.mono (failsAt_typeAt hint) fun cause hc => .type id hc)
  | value given comment =>
      cases given with
      | ellipsis => exact hconstant _ _ _ rfl id
      | int n =>
          refine .ite (fun hz => hconstant _ _ _ rfl fun hn => hn hz) fun hn => ?_
          exact failsAt_fault (.number hn)
      | float x => exact failsAt_fault (.number trivial)
      | bool b => exact hconstant _ _ _ rfl id
      | _ => exact .pure

theorem declared_nonZero {assigned : Assigned} (h : assigned.isNonZero) :
    declared line assigned = fault line .nonZeroNumber := by
  cases assigned with
  | declared hint placeholder => exact absurd h id
  | value given comment =>
      cases given with
      | int n => exact if_neg h
      | float x => rfl
      | _ => exact absurd h id

-- What an assignment gives another name to is what it has on its right.
theorem ensures_synonym (assigned : Assigned) :
    Ensures (fun state => state.names = names) (declared line assigned) fun given =>
      ¬assigned.isNonZero ∧ ∀ value, given = .synonym value → assigned.synonyms = [value] := by
  intro state given state' hs h
  refine ⟨⟨fun hz => ?_, fun value hv => ?_⟩, ((converts_declared line assigned) h).1.trans hs⟩
  · rw [declared_nonZero hz] at h
    exact absurd h fault_ne_ok
  rcases declared_ok h with ⟨type, rfl, -⟩ | ⟨found, rfl, -, hsynonyms, -⟩
  · simp at hv
  · rw [hsynonyms, Declared.synonym.inj hv]

theorem failsAt_moduleAssignment (target : Text) (assigned : Assigned) :
    FailsAt names line (assigned.Wrong names) (moduleAssignment line target assigned) := by
  refine .bindOf (failsAt_declared assigned) (ensures_synonym assigned) fun given ⟨hz, hg⟩ => ?_
  cases given with
  | constant type => exact .pure
  | synonym value =>
      refine .bindPure (FailsAt.mono (failsAt_typeAt value) fun cause hc => .type hz (hc.mono ?_))
      rw [hg value rfl]
      exact List.subset_append_right _ _

-- Only an argument of that keyword makes a metaclass.
theorem ensures_metaclass (heritage : Heritage) (arg : ClassArg) :
    Ensures (fun state => state.names = names) (classArgument line heritage arg) fun next =>
      next.metaclass.isSome = true → heritage.metaclass.isSome = true ∨ arg.IsMetaclass := by
  refine .ite (fun _ => .throw_bind) fun hk => .ite (fun _ => .throw_bind) fun _ => ?_
  refine .bind (converts_typeAt line arg.value).keeps fun type _ => ?_
  refine .ite (fun hs => .pure fun _ => .inr ?_) fun _ => ?_
  · obtain ⟨keyword, hkeyword⟩ := Option.isSome_iff_exists.mp hs
    simpa [ClassArg.IsMetaclass, hkeyword] using hk
  · exact .ite (fun _ => .pure .inl) fun _ => .pure .inl

theorem failsAt_classArguments (args : List ClassArg) :
    FailsAt names line (WrongArguments names args)
      (args.foldlM (classArgument line) ⟨[], none⟩) := by
  refine .foldlMSplit (R := fun before heritage => heritage.metaclass.isSome = true →
    ∃ arg ∈ before, arg.IsMetaclass) nofun ?_ ?_
  · intro before arg after heritage hsplit h
    refine (ensures_metaclass heritage arg).mono fun next hnext hs => ?_
    rcases hnext hs with hs | hk
    · obtain ⟨first, hm, hk⟩ := h hs
      exact ⟨first, List.mem_append_left _ hm, hk⟩
    · exact ⟨arg, by simp, hk⟩
  · intro before arg after heritage hsplit h
    have harg : arg ∈ args := by simp [hsplit]
    refine .ite (fun hk => failsAt_fault_bind ?_) fun _ => ?_
    · obtain ⟨keyword, hkeyword, hne⟩ := (Option.any_eq_true _ _).mp hk
      exact .keyword harg hkeyword (by simpa using hne)
    refine .ite (fun hs => failsAt_fault_bind ?_) fun _ => ?_
    · obtain ⟨first, hm, hk⟩ := h hs
      obtain ⟨front, back, rfl⟩ := List.append_of_mem hm
      have hargs : args = front ++ first :: (back ++ arg :: after) := by
        rw [hsplit, List.append_assoc, List.cons_append]
      exact .metaclass hargs hk (by simp)
    refine FailsAt.bind ?_ (converts_typeAt line arg.value) fun _ => ?_
    · refine FailsAt.mono (failsAt_typeAt arg.value) fun cause hc => .type (hc.mono ?_)
      simpa using ⟨arg, harg, rfl⟩
    · exact .ite (fun _ => .pure) fun _ => .ite (fun _ => .pure) fun _ => .pure

theorem failsAt_typeVariable (name declaredName : Text) (constraints : List Expr) :
    FailsAt names line
      (fun cause => WrongType names constraints cause ∨
        cause = .typeVarName declaredName name ∧ declaredName ≠ name)
      (typeVariable line name declaredName constraints) := by
  refine .ite (fun hn => failsAt_fault_bind (.inr ⟨rfl, hn⟩)) fun _ => ?_
  exact .bindPure (FailsAt.mono (failsAt_typesAt constraints) fun _ => .inl)

end

section

variable {target : Target} {names : Names} {path : Path} {position : Nat}

theorem kind_of_reached {statement : Stmt} (h : reachedStmt target path statement = []) :
    statement.kind ≠ .ifStmt := by
  cases statement with
  | conditional place isElif condition thenBody elseBody => simp [reachedStmt] at h
  | _ => simp [Stmt.kind]

theorem kind_of_mem {body : List Stmt} (h : reached target path position body = []) :
    ∀ statement ∈ body, statement.kind ≠ .ifStmt := by
  induction body generalizing position with
  | nil => simp
  | cons first rest ih =>
      obtain ⟨hfirst, hrest⟩ := List.append_eq_nil_iff.mp h
      exact List.forall_mem_cons.mpr ⟨kind_of_reached hfirst, ih hrest⟩

theorem copiedType?_eq_none {constants : List Constant} {id : Text}
    (h : copiedType? constants (.name id) = none) : id ∉ constants.map (·.name) := by
  intro hm
  obtain ⟨c, hc, rfl⟩ := List.mem_map.mp hm
  rw [copiedType?, Option.map_eq_none_iff, lastConstant?, List.getLast?_eq_none_iff,
    List.filter_eq_nil_iff] at h
  exact h c hc (by simp)

section

variable {place : Place} {name : Text} {args : List ClassArg}

theorem ensures_constantNames (line : Int32) (scan : ClassScan) (statement : Stmt) :
    Ensures (fun state => state.names = names) (classStatement line scan statement) fun next =>
      next.constants.map (·.name) =
        scan.constants.map (·.name) ++ (assignedName? statement).toList := by
  intro state next state' hs h
  refine ⟨?_, ((converts_classStatement line scan statement) h).1.trans hs⟩
  rcases classStatement_ok h with
    ⟨place, d, definition, rfl, -, rfl⟩ | ⟨place, target, given, found, type, rfl, -, -, rfl⟩
  · simp [assignedName?]
  · simp [assignedName?]

-- A statement of a class body is blamed itself, but for an alias the class is.
theorem failsIn_classStatement {body before after : List Stmt} {statement : Stmt}
    {scan : ClassScan} (hb : body = before ++ statement :: after)
    (hs : statement.Scoped .classBody) (hk : statement.kind ≠ .ifStmt)
    (hn : scan.constants.map (·.name) = assignedNames before) :
    FailsIn names (.classDef place name args body) (classStatement place.line scan statement) := by
  have hi : statement ∈ (Stmt.classDef place name args body).nested := by
    have hm : statement ∈ Stmt.nestedAll body :=
      Stmt.mem_nestedAll.mpr ⟨statement, by simp [hb], statement.self_mem_nested⟩
    exact List.mem_cons_of_mem _ hm
  cases statement with
  | definition inner d =>
      exact .bindPure (failsIn_of_failsAt hi (failsAt_definition d) fun _ => .definition)
  | assign inner target assigned =>
      refine .bindOf (failsIn_of_failsAt hi (failsAt_declared assigned) fun _ => .assign)
        (ensures_synonym assigned) fun given ⟨hz, hg⟩ => ?_
      cases given with
      | constant type => exact .pure
      | synonym value =>
          dsimp only
          split
          · exact .pure
          · rename_i hnone
            have hunknown : ∀ id, value = .name id → id ∉ assignedNames before :=
              fun id hid => hn ▸ copiedType?_eq_none (hid ▸ hnone)
            have hfaulty : (Stmt.classDef place name args body).Faulty names (.classAlias target) :=
              .illegalAlias hb hz (hg value rfl) hunknown
            exact failsIn_fault hfaulty
  | conditional => exact absurd rfl hk
  | classDef => exact absurd hs.1 nofun
  | typeVar => exact absurd hs nofun
  | importModules => exact absurd hs nofun
  | importFrom => exact absurd hs nofun
  | importAll => exact absurd hs nofun

theorem failsIn_classBody {body : List Stmt} (hflat : reached target path position body = [])
    (hs : Stmt.AllScoped .classBody body) :
    FailsIn names (.classDef place name args body)
      (classBody [] place.line path position ⟨[], []⟩ body) := by
  rw [classBody_eq_foldlM hflat]
  refine .foldlMSplit (R := fun before scan => scan.constants.map (·.name) = assignedNames before)
    rfl ?_ ?_
  · intro before statement after scan _ hn
    refine (ensures_constantNames place.line scan statement).mono fun next hnext => ?_
    rw [hnext, hn, assignedNames, assignedNames, List.filterMap_append]
    cases ha : assignedName? statement <;> simp [ha]
  · intro before statement after scan hsplit hn
    have hm : statement ∈ body := by simp [hsplit]
    exact failsIn_classStatement hsplit (Stmt.allScoped_iff.mp hs statement hm)
      (kind_of_mem hflat statement hm) hn

-- The parents come first, then the body and last its members.
theorem failsIn_classOf {body : List Stmt} (hflat : reached target path 0 body = [])
    (hs : Stmt.AllScoped .classBody body) :
    FailsIn names (.classDef place name args body)
      (classOf place.line name args (classBody [] place.line path 0 ⟨[], []⟩ body)) := by
  have hargs := Stmt.self_mem_nested (.classDef place name args body)
  have hkeeps := ConvertsTypes.foldlM args (⟨[], none⟩ : Heritage)
    (converts_classArgument place.line)
  have hruns : Ensures (fun state => state.names = names)
      (classBody [] place.line path 0 ⟨[], []⟩ body) fun scan =>
        ∃ state last assigned, state.names = names ∧
          ClassRuns state [] body assigned scan.definitions last := by
    intro state scan last hn h
    obtain ⟨assigned, defs, hr, rfl⟩ := classRuns_of_classBody hflat h
    have hkept := ((converts_classBody hflat) h).1.trans hn
    exact ⟨⟨state, last, assigned, hn, by simpa using hr⟩, hkept⟩
  refine .bindOf (failsIn_of_failsAt hargs (failsAt_classArguments args) fun _ => .arguments)
    hkeeps.keeps fun heritage _ => ?_
  refine .bindOf (failsIn_classBody hflat hs) hruns fun scan hscan => .bindPure ?_
  obtain ⟨state, last, assigned, hn, hr⟩ := hscan
  cases hm : Merge.classMembers (some place.line.toInt) scan.definitions with
  | ok members => exact .pure
  | error found =>
      have hline := (Merge.faultAt_classMembers hm).line
      obtain ⟨cause, line⟩ := found
      obtain rfl : line = some place.line.toInt := hline
      exact .throw (blamesIn_self (.merge hn hr hm))

end

-- A statement of a module fails for a reason of its own, or for one of a member of its body.
theorem failsIn_moduleStatement {statement : Stmt}
    (hflat : reachedStmt target path statement = []) (hs : statement.Scoped .module) :
    FailsIn names statement (moduleStatement [] path statement) := by
  have hself := statement.self_mem_nested
  cases statement with
  | definition place d =>
      rw [moduleStatement]
      exact .bindPure (failsIn_of_failsAt hself (failsAt_definition d) fun _ => .definition)
  | classDef place name args body =>
      rw [moduleStatement]
      exact .bindPure (failsIn_classOf hflat hs.2)
  | conditional place isElif condition thenBody elseBody => simp [reachedStmt] at hflat
  | assign place target assigned =>
      rw [moduleStatement]
      exact .bindPure (failsIn_of_failsAt hself (failsAt_moduleAssignment target assigned)
        fun _ => .assign)
  | typeVar place name declaredName constraints keywords =>
      rw [moduleStatement]
      refine .bindPure
        (failsIn_of_failsAt hself (failsAt_typeVariable name declaredName constraints) ?_)
      rintro cause (hc | ⟨rfl, hne⟩)
      · exact .typeVar hc
      · exact .typeVarName hne
  | importModules place modules =>
      rw [moduleStatement]
      refine .ite (fun hm => ?_) fun _ => .pure
      obtain ⟨imported, hm, h⟩ := List.any_eq_true.mp hm
      exact .throw_bind (blamesIn_self (.renamed hm h))
  | importFrom place module imported =>
      rw [moduleStatement]
      refine .bindPure (.always (.mapM (fun n _ => ?_) fun _ _ => .any))
      have hadd : ∀ name target, FailsOnly (fun _ => True)
          (BlamesIn names (.importFrom place module imported)) (addImport name target) :=
        fun _ _ => .total fun _ => ⟨_, _, rfl⟩
      exact .bind (hadd _ _) fun _ => .ite (fun _ => .pure) fun _ => .pure
  | importAll place module =>
      rw [moduleStatement]
      exact .pure

-- The statements are built one after another, up to the first that is at fault.
theorem moduleBody_error {live : List Stmt} {before after : BuildState} {fault : Fault}
    (hflat : reached target path position live = []) (hs : Stmt.AllScoped .module live)
    (h : moduleBody [] path position live before = .error fault after) :
    BlamesAmong before.names live fault := by
  induction live generalizing position before with
  | nil => cases h
  | cons statement rest ih =>
      obtain ⟨hstatement, hrest⟩ := List.append_eq_nil_iff.mp hflat
      rw [moduleBody] at h
      obtain hfirst | ⟨items, middle, hfirst, htail⟩ := run_bind_error h
      · exact ⟨_, List.mem_cons_self, failsIn_moduleStatement hstatement hs.1 rfl hfirst⟩
      · obtain hfault | ⟨more, last, -, hdone⟩ := run_bind_error htail
        · obtain ⟨place, hm, hblames⟩ := ih hrest hs.2 hfault
          rw [(makesOne hstatement hfirst).1] at hm
          exact ⟨place, List.mem_cons_of_mem _ hm, hblames⟩
        · cases hdone

-- Once all statements are built, only their definitions may still be at odds.
theorem moduleOf_error {name : Text} {live : List Stmt} {before after : BuildState} {fault : Fault}
    (hflat : reached target [] 0 live = []) (hs : Stmt.AllScoped .module live)
    (h : moduleOf name [] live before = .error fault after) :
    BlamesAmong before.names live fault ∨ ∃ defs classes last,
      Runs before live defs classes last ∧ Merge.moduleFunctions defs = .error fault := by
  obtain hbody | ⟨items, last, hitems, hrest⟩ := run_bind_error h
  · exact .inl (moduleBody_error hflat hs hbody)
  · refine .inr ⟨_, _, last, runs_of_moduleBody hflat hitems, ?_⟩
    cases hm : Merge.moduleFunctions (items.filterMap Item.definition?) with
    | ok functions =>
        rw [hm] at hrest
        cases hrest
    | error found =>
        rw [hm] at hrest
        obtain ⟨rfl, -⟩ := (EStateM.Result.error.injEq ..).mp hrest
        rfl

end

end Live

end TypeStub
