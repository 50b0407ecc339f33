import TypeStub.Proofs.Build.Converted
import TypeStub.Proofs.Live.Definitions

-- What the live statements of a module declare, list by list.
namespace TypeStub

def Assigned.isConstant : Assigned → Bool
  | .declared _ _ => true
  | .value given _ => given.isConstant

namespace Live

open TypeStub.Convert Declare Build

-- The type of the constant that an assignment declares: that of its hint or comment, or else what
-- its value tells.
inductive AssignedType (names : Names) : Assigned → Ty → Prop
  | hint {hint : Expr} {placeholder : Bool} {type : Ty} (h : Converts names hint type) :
      AssignedType names (.declared hint placeholder) type
  | comment {given comment : Expr} {type : Ty} (hg : given.isConstant = true)
      (h : Converts names comment type) : AssignedType names (.value given (some comment)) type
  | ellipsis : AssignedType names (.value .ellipsis none) .anything
  | int : AssignedType names (.value (.int 0) none) (.named "int")
  | bool (value : Bool) : AssignedType names (.value (.bool value) none) (.named "bool")

-- Another name for a type: an assigned one, or one that an import binds.
inductive Binding
  | assigned (names : Names) (target : Text) (value : Expr)
  | imported (name target : Text)

-- The other names that a statement binds, in their order. Those from the typing module are known
-- without one.
def bindings : Names × Stmt → List Binding
  | (names, .assign _ target assigned) => assigned.synonyms.map (.assigned names target)
  | (_, .importFrom _ module imported) =>
      if module = "typing" then []
      else imported.map fun n => .imported (n.asName.getD n.name) (module ++ '.' :: n.name)
  | _ => []

def declaresConstant : Names × Stmt → Bool
  | (_, .assign _ _ assigned) => assigned.isConstant
  | _ => false

def declaresTypeVariable : Names × Stmt → Bool
  | (_, .typeVar _ _ _ _ _) => true
  | _ => false

inductive MakesConstant : Names × Stmt → Constant → Prop
  | assign {names : Names} {place : Place} {target : Text} {assigned : Assigned} {type : Ty}
      (h : AssignedType names assigned type) :
      MakesConstant (names, .assign place target assigned) ⟨target, type⟩

inductive MakesAlias : Binding → Alias → Prop
  | assigned {names : Names} {target : Text} {value : Expr} {type : Ty}
      (h : Converts names value type) : MakesAlias (.assigned names target value) ⟨target, type⟩
  | imported (name target : Text) : MakesAlias (.imported name target) ⟨name, .named target⟩

inductive MakesTypeVariable : Names × Stmt → TypeVariable → Prop
  | typeVar {names : Names} {place : Place} {name : Text} {constraints : List Expr}
      {keywords : List (Text × Expr)} {types : List Ty}
      (h : List.Forall₂ (Converts names) constraints types) :
      MakesTypeVariable (names, .typeVar place name name constraints keywords) ⟨name, types⟩

-- The records of a statement in the order in which they are finished.
def finishedIn : Names × Stmt → List WrittenRecord
  | (names, statement) => statement.types.flatMap (finished names)

-- What statements make, each with the names that are known at its place: one entry for each
-- declaration in its list, in order, and nothing else.
structure Makes (statements : List (Names × Stmt)) (constants : List Constant)
    (aliases : List Alias) (typeVariables : List TypeVariable)
    (classes records : List StubClass) : Prop where
  constants : List.Forall₂ MakesConstant (statements.filter declaresConstant) constants
  aliases : List.Forall₂ MakesAlias (statements.flatMap bindings) aliases
  typeVariables :
    List.Forall₂ MakesTypeVariable (statements.filter declaresTypeVariable) typeVariables
  classes : classes.map (·.name) = (classStatements (statements.map (·.2))).map (·.1)
  records : List.Forall₂ MakesRecord (statements.flatMap finishedIn) records

-- The names that are known after a statement: an import adds those that it binds.
def namesAfter (names : Names) : Stmt → Names
  | .importFrom _ module imported => imported.foldl
      (fun names n => names.addImport (n.asName.getD n.name) (module ++ '.' :: n.name)) names
  | _ => names

-- The statements of a body, each with the names that are known at its place.
def known (names : Names) : List Stmt → List (Names × Stmt)
  | [] => []
  | statement :: rest => (names, statement) :: known (namesAfter names statement) rest

theorem map_known (names : Names) (body : List Stmt) : (known names body).map (·.2) = body := by
  induction body generalizing names with
  | nil => rfl
  | cons statement rest ih => exact congrArg (statement :: ·) (ih _)

theorem mem_of_mem_known {names : Names} {body : List Stmt} {place : Names × Stmt}
    (h : place ∈ known names body) : place.2 ∈ body :=
  map_known names body ▸ List.mem_map_of_mem h

theorem exists_mem_known (names : Names) {body : List Stmt} {statement : Stmt}
    (h : statement ∈ body) : ∃ there, (there, statement) ∈ known names body := by
  rw [← map_known names body] at h
  obtain ⟨⟨there, _⟩, hm, rfl⟩ := List.mem_map.mp h
  exact ⟨there, hm⟩

section

variable {statements more : List (Names × Stmt)} {constants constants' : List Constant}
  {aliases aliases' : List Alias} {typeVariables typeVariables' : List TypeVariable}
  {classes classes' records records' : List StubClass}

theorem Makes.nil : Makes [] [] [] [] [] [] := ⟨.nil, .nil, .nil, rfl, .nil⟩

theorem Makes.append (h : Makes statements constants aliases typeVariables classes records)
    (hm : Makes more constants' aliases' typeVariables' classes' records') :
    Makes (statements ++ more) (constants ++ constants') (aliases ++ aliases')
      (typeVariables ++ typeVariables') (classes ++ classes') (records ++ records') where
  constants := by
    rw [List.filter_append]
    exact List.rel_append h.constants hm.constants
  aliases := by
    rw [List.flatMap_append]
    exact List.rel_append h.aliases hm.aliases
  typeVariables := by
    rw [List.filter_append]
    exact List.rel_append h.typeVariables hm.typeVariables
  classes := by
    have hc := h.classes
    have hc' := hm.classes
    simp only [classStatements, List.map_append, List.filterMap_append] at *
    rw [hc, hc']
  records := by
    rw [List.flatMap_append]
    exact List.rel_append h.records hm.records

end

-- The types that a statement is read for, with the names that are known at its place.
def typesIn : Names × Stmt → List (Names × Expr)
  | (names, statement) => statement.types.map (names, ·)

theorem finishedEach_typesIn (place : Names × Stmt) :
    finishedEach (typesIn place) = finishedIn place := by
  simp [finishedEach, typesIn, finishedIn, List.flatMap_map]

-- What one statement does: it leaves the names that are known after it, converts its types, and
-- makes its entries, whatever classes come from its records.
def MakesOne (statement : Stmt) (p : Build (List Item)) : Prop :=
  ∀ ⦃before : BuildState⦄ ⦃items : List Item⦄ ⦃after : BuildState⦄, p before = .ok items after →
    after.names = namesAfter before.names statement ∧
      ConvertsEach (typesIn (before.names, statement)) before.records after.records ∧
      ∀ records, List.Forall₂ MakesRecord (finishedIn (before.names, statement)) records →
        Makes [(before.names, statement)] (items.filterMap Item.constant?)
          (items.filterMap Item.synonym?) (items.filterMap Item.typeVariable?)
          (items.filterMap Item.class?) records

section

variable {line : Int32} {assigned : Assigned} {before after : BuildState}

theorem constantOf_ok {given : Expr} {comment : Option Expr} {plain : Ty} {found : Declared}
    (hg : given.isConstant = true) (hp : AssignedType before.names (.value given none) plain)
    (h : constantOf line comment plain before = .ok found after) :
    ∃ type, found = .constant type ∧ AssignedType before.names (.value given comment) type := by
  cases comment with
  | none =>
      obtain ⟨rfl, -⟩ := (EStateM.Result.ok.injEq ..).mp h
      exact ⟨plain, rfl, hp⟩
  | some e =>
      obtain ⟨type, middle, htype, hlast⟩ := run_bind_ok h
      obtain ⟨rfl, -⟩ := (EStateM.Result.ok.injEq ..).mp hlast
      exact ⟨type, rfl, .comment hg (typeAt_ok htype)⟩

-- An assignment declares a constant, or it leaves its value for another name.
theorem declared_ok {found : Declared} (h : declared line assigned before = .ok found after) :
    (∃ type, found = .constant type ∧ assigned.isConstant = true ∧ assigned.synonyms = [] ∧
      AssignedType before.names assigned type) ∨
    (∃ value, found = .synonym value ∧ assigned.isConstant = false ∧
      assigned.synonyms = [value] ∧ assigned.hints = [] ∧ after = before) := by
  cases assigned with
  | declared hint placeholder =>
      obtain ⟨type, middle, htype, hlast⟩ := run_bind_ok h
      obtain ⟨rfl, -⟩ := (EStateM.Result.ok.injEq ..).mp hlast
      exact .inl ⟨type, rfl, rfl, rfl, .hint (typeAt_ok htype)⟩
  | value given comment =>
      cases given with
      | ellipsis =>
          obtain ⟨type, hfound, ht⟩ := constantOf_ok rfl .ellipsis h
          exact .inl ⟨type, hfound, rfl, rfl, ht⟩
      | int n =>
          rw [declared] at h
          split at h
          · rename_i hzero
            subst hzero
            obtain ⟨type, hfound, ht⟩ := constantOf_ok rfl .int h
            exact .inl ⟨type, hfound, rfl, rfl, ht⟩
          · exact absurd h fault_ne_ok
      | float x => exact absurd h fault_ne_ok
      | bool b =>
          obtain ⟨type, hfound, ht⟩ := constantOf_ok rfl (.bool b) h
          exact .inl ⟨type, hfound, rfl, rfl, ht⟩
      | _ =>
          obtain ⟨rfl, rfl⟩ := (EStateM.Result.ok.injEq ..).mp h
          exact .inr ⟨_, rfl, rfl, rfl, rfl, rfl⟩

end

theorem converts_classBody {target : Target} {line : Int32} {path : Path} {position : Nat}
    {scan : ClassScan} {body : List Stmt} (hflat : reached target path position body = []) :
    ConvertsTypes (classBody [] line path position scan body) (body.flatMap Stmt.memberTypes) := by
  induction body generalizing position scan with
  | nil => exact .pure scan
  | cons statement rest ih =>
      obtain ⟨hstatement, hrest⟩ := List.append_eq_nil_iff.mp hflat
      rw [classBody, classMember_eq_classStatement hstatement, List.flatMap_cons]
      exact (converts_classStatement line scan statement).bind fun scan => ih hrest

section

variable {target : Target} {path : Path} {place : Place}

theorem makesOne_definition (d : Def) :
    MakesOne (.definition place d) (moduleStatement [] path (.definition place d)) := by
  intro before items after h
  rw [moduleStatement] at h
  obtain ⟨definition, last, hd, hlast⟩ := run_bind_ok h
  obtain ⟨rfl, rfl⟩ := (EStateM.Result.ok.injEq ..).mp hlast
  obtain ⟨hnames, hconverts⟩ := converts_definition place.line d hd
  exact ⟨hnames, hconverts, fun records hrecords =>
    ⟨.nil, .nil, .nil, rfl, by simpa using hrecords⟩⟩

theorem makesOne_assign (name : Text) (assigned : Assigned) :
    MakesOne (.assign place name assigned)
      (moduleStatement [] path (.assign place name assigned)) := by
  intro before items after h
  rw [moduleStatement] at h
  obtain ⟨item, last, hitem, hlast⟩ := run_bind_ok h
  obtain ⟨rfl, rfl⟩ := (EStateM.Result.ok.injEq ..).mp hlast
  obtain ⟨found, middle, hfound, hrest⟩ := run_bind_ok hitem
  obtain ⟨hnames, hconverts⟩ := converts_declared place.line assigned hfound
  rcases declared_ok hfound with ⟨type, rfl, hc, hs, ht⟩ | ⟨value, rfl, hc, hs, hh, rfl⟩
  · obtain ⟨rfl, rfl⟩ := (EStateM.Result.ok.injEq ..).mp hrest
    refine ⟨hnames, by simpa [typesIn, Stmt.types, hs] using hconverts,
      fun records hrecords => ⟨?_, ?_, .nil, rfl, by simpa using hrecords⟩⟩
    · simpa [declaresConstant, hc, Item.constant?] using MakesConstant.assign ht
    · simp [bindings, hs, Item.synonym?]
  · obtain ⟨type, final, htype, hdone⟩ := run_bind_ok hrest
    obtain ⟨rfl, rfl⟩ := (EStateM.Result.ok.injEq ..).mp hdone
    obtain ⟨hkept, hconverts⟩ := converts_typeAt place.line value htype
    refine ⟨hkept, by simpa [typesIn, Stmt.types, hs, hh] using hconverts,
      fun records hrecords => ⟨?_, ?_, .nil, rfl, by simpa using hrecords⟩⟩
    · simp [declaresConstant, hc, Item.constant?]
    · simpa [bindings, hs, Item.synonym?] using MakesAlias.assigned (typeAt_ok htype)

theorem makesOne_typeVar (name declaredName : Text) (constraints : List Expr)
    (keywords : List (Text × Expr)) :
    MakesOne (.typeVar place name declaredName constraints keywords)
      (moduleStatement [] path (.typeVar place name declaredName constraints keywords)) := by
  intro before items after h
  rw [moduleStatement] at h
  obtain ⟨item, last, hitem, hlast⟩ := run_bind_ok h
  obtain ⟨rfl, rfl⟩ := (EStateM.Result.ok.injEq ..).mp hlast
  obtain ⟨hnames, hconverts⟩ :=
    converts_typeVariable place.line name declaredName constraints hitem
  unfold typeVariable at hitem
  split at hitem
  · obtain ⟨_, _, hfault, -⟩ := run_bind_ok hitem
    exact absurd hfault fault_ne_ok
  · rename_i hname
    obtain rfl := not_not.mp hname
    obtain ⟨types, middle, htypes, hdone⟩ := run_bind_ok hitem
    obtain ⟨rfl, rfl⟩ := (EStateM.Result.ok.injEq ..).mp hdone
    have hmade : MakesTypeVariable (before.names, .typeVar place declaredName declaredName
        constraints keywords) ⟨declaredName, types⟩ := .typeVar (typesAt_ok htypes)
    exact ⟨hnames, hconverts, fun records hrecords =>
      ⟨.nil, .nil, .cons hmade .nil, rfl, by simpa using hrecords⟩⟩

theorem makesOne_classDef (name : Text) (args : List ClassArg) {body : List Stmt}
    (hflat : reached target path.classBody 0 body = []) :
    MakesOne (.classDef place name args body)
      (moduleStatement [] path (.classDef place name args body)) := by
  intro before items after h
  rw [moduleStatement] at h
  obtain ⟨c, last, hc, hlast⟩ := run_bind_ok h
  obtain ⟨rfl, rfl⟩ := (EStateM.Result.ok.injEq ..).mp hlast
  have hname : c.name = name := (ensures_className place.line name args _ trivial hc).1
  obtain ⟨hnames, hconverts⟩ :=
    converts_classOf place.line name args (converts_classBody hflat) hc
  refine ⟨hnames, hconverts, fun records hrecords =>
    ⟨.nil, .nil, .nil, ?_, by simpa using hrecords⟩⟩
  simp [Item.class?, classStatements, classStatement?, hname]

-- The other name that an import binds.
def importedAlias (module : Text) (n : ImportedName) : Alias :=
  ⟨n.asName.getD n.name, .named (module ++ '.' :: n.name)⟩

-- The other names that an import from a module makes known to its readers.
def importedAliases (module : Text) (imported : List ImportedName) : List Alias :=
  if module = "typing" then [] else imported.map (importedAlias module)

theorem importedMembers_ok (place : Place) {module : Text} {imported : List ImportedName}
    {found : List (Option Item)} {before after : BuildState}
    (h : imported.mapM (importedMember module) before = .ok found after) :
    after.names = namesAfter before.names (.importFrom place module imported) ∧
      after.records = before.records ∧
      found.filterMap id = (importedAliases module imported).map Item.synonym := by
  induction imported generalizing before found after with
  | nil =>
      obtain ⟨rfl, rfl⟩ := (EStateM.Result.ok.injEq ..).mp h
      exact ⟨rfl, rfl, by simp [importedAliases]⟩
  | cons n rest ih =>
      rw [List.mapM_cons] at h
      obtain ⟨item, middle, hitem, htail⟩ := run_bind_ok h
      obtain ⟨others, last, hothers, hlast⟩ := run_bind_ok htail
      obtain ⟨rfl, rfl⟩ := (EStateM.Result.ok.injEq ..).mp hlast
      obtain ⟨hnames, hrecords, hfound⟩ := ih hothers
      obtain ⟨_, known, hadd, hone⟩ := run_bind_ok hitem
      obtain ⟨-, rfl⟩ := (EStateM.Result.ok.injEq ..).mp hadd
      unfold importedAliases at hfound ⊢
      split at hone
      · rename_i htyping
        obtain ⟨rfl, rfl⟩ := (EStateM.Result.ok.injEq ..).mp hone
        rw [if_pos htyping] at hfound ⊢
        exact ⟨hnames, hrecords, hfound⟩
      · rename_i hother
        obtain ⟨rfl, rfl⟩ := (EStateM.Result.ok.injEq ..).mp hone
        rw [if_neg hother] at hfound ⊢
        have hcons := congrArg (Item.synonym (importedAlias module n) :: ·) hfound
        exact ⟨hnames, hrecords, hcons⟩

theorem makesAlias_imported (names : Names) (place : Place) (module : Text)
    (imported : List ImportedName) :
    List.Forall₂ MakesAlias (bindings (names, .importFrom place module imported))
      (importedAliases module imported) := by
  rw [bindings, importedAliases]
  split
  · exact .nil
  · rw [List.forall₂_map_left_iff, List.forall₂_map_right_iff, List.forall₂_same]
    exact fun n _ => .imported _ _

theorem makesOne_importFrom (module : Text) (imported : List ImportedName) :
    MakesOne (.importFrom place module imported)
      (moduleStatement [] path (.importFrom place module imported)) := by
  intro before items after h
  rw [moduleStatement] at h
  obtain ⟨found, last, hfound, hlast⟩ := run_bind_ok h
  obtain ⟨rfl, rfl⟩ := (EStateM.Result.ok.injEq ..).mp hlast
  obtain ⟨hnames, hrecords, hitems⟩ := importedMembers_ok place hfound
  refine ⟨hnames, hrecords ▸ .nil _, fun records hmade => ?_⟩
  -- All items of an import are synonyms.
  have hothers : ∀ {β : Type} (pick : Item → Option β), (∀ a, pick (.synonym a) = none) →
      ((importedAliases module imported).map Item.synonym).filterMap pick = [] := by
    intro β pick hpick
    simp [List.filterMap_map, hpick]
  have hsynonyms : ((importedAliases module imported).map Item.synonym).filterMap Item.synonym? =
      importedAliases module imported := by
    rw [List.filterMap_map]
    exact List.filterMap_some
  rw [hitems, hsynonyms, hothers Item.constant? fun _ => rfl,
    hothers Item.typeVariable? fun _ => rfl, hothers Item.class? fun _ => rfl]
  refine ⟨.nil, ?_, .nil, rfl, by simpa using hmade⟩
  rw [List.flatMap_singleton]
  exact makesAlias_imported before.names place module imported

theorem makesOne_importModules (modules : List ImportedName) :
    MakesOne (.importModules place modules)
      (moduleStatement [] path (.importModules place modules)) := by
  intro before items after h
  rw [moduleStatement] at h
  split at h
  · obtain ⟨_, _, hfault, -⟩ := run_bind_ok h
    exact absurd hfault fault_ne_ok
  · obtain ⟨rfl, rfl⟩ := (EStateM.Result.ok.injEq ..).mp h
    exact ⟨rfl, .nil _, fun records hmade => ⟨.nil, .nil, .nil, rfl, by simpa using hmade⟩⟩

theorem makesOne_importAll (module : Text) :
    MakesOne (.importAll place module) (moduleStatement [] path (.importAll place module)) := by
  intro before items after h
  rw [moduleStatement] at h
  obtain ⟨rfl, rfl⟩ := (EStateM.Result.ok.injEq ..).mp h
  exact ⟨rfl, .nil _, fun records hmade => ⟨.nil, .nil, .nil, rfl, by simpa using hmade⟩⟩

theorem makesOne {statement : Stmt} (hflat : reachedStmt target path statement = []) :
    MakesOne statement (moduleStatement [] path statement) := by
  cases statement with
  | definition place d => exact makesOne_definition d
  | classDef place name args body => exact makesOne_classDef name args hflat
  | conditional place isElif condition thenBody elseBody => simp [reachedStmt] at hflat
  | assign place name assigned => exact makesOne_assign name assigned
  | typeVar place name declaredName constraints keywords =>
      exact makesOne_typeVar name declaredName constraints keywords
  | importModules place modules => exact makesOne_importModules modules
  | importFrom place module imported => exact makesOne_importFrom module imported
  | importAll place module => exact makesOne_importAll module

-- What a whole body makes, by its statements one after another: it converts their types in order.
theorem makes_moduleBody {live : List Stmt} {position : Nat} {before after : BuildState}
    {items : List Item} (hflat : reached target path position live = [])
    (h : moduleBody [] path position live before = .ok items after) :
    ConvertsEach ((known before.names live).flatMap typesIn) before.records after.records ∧
      ∃ added, after.records.classes = before.records.classes ++ added ∧
        Makes (known before.names live) (items.filterMap Item.constant?)
          (items.filterMap Item.synonym?) (items.filterMap Item.typeVariable?)
          (items.filterMap Item.class?) added := by
  induction live generalizing position before items with
  | nil =>
      obtain ⟨rfl, rfl⟩ := (EStateM.Result.ok.injEq ..).mp h
      exact ⟨.nil _, [], (List.append_nil _).symm, .nil⟩
  | cons statement rest ih =>
      obtain ⟨hstatement, hrest⟩ := List.append_eq_nil_iff.mp hflat
      rw [moduleBody] at h
      obtain ⟨first, middle, hfirst, htail⟩ := run_bind_ok h
      obtain ⟨others, last, hothers, hlast⟩ := run_bind_ok htail
      obtain ⟨rfl, rfl⟩ := (EStateM.Result.ok.injEq ..).mp hlast
      obtain ⟨hnames, hconverts, hmakes⟩ := makesOne hstatement hfirst
      obtain ⟨added, hadded, hrecords⟩ := hconverts.finishes
      rw [finishedEach_typesIn] at hrecords
      obtain ⟨hmore, later, hlater, hothers⟩ := ih hrest hothers
      rw [hnames] at hmore hothers
      refine ⟨hconverts.append hmore, added ++ later, ?_, ?_⟩
      · rw [hlater, hadded, List.append_assoc]
      · simp only [List.filterMap_append]
        exact (hmakes added hrecords).append hothers

end

def typeVariableName? : Stmt → Option Text
  | .typeVar _ name _ _ _ => some name
  | _ => none

-- A class body that builds something declares neither a class nor a type variable.
theorem ClassRuns.declare_eq {state last : BuildState} {before assigned : List Constant}
    {body : List Stmt} {defs : List Definition} (h : ClassRuns state before body assigned defs last)
    (names : Names) : declare names body = names := by
  induction h with
  | nil _ _ => rfl
  | definition _ _ ih => exact ih
  | assign _ _ _ ih => exact ih

theorem Runs.isTypeVar_declare {state last : BuildState} {live : List Stmt}
    {defs : List Definition} {classes : List StubClass}
    (h : Runs state live defs classes last) {names : Names} {name : Text}
    (hn : (declare names live).isTypeVar name = true) :
    names.isTypeVar name = true ∨ name ∈ live.filterMap typeVariableName? := by
  induction h generalizing names with
  | nil _ => exact .inl hn
  | definition _ _ ih => exact ih hn
  | classDef _ hc _ ih =>
      obtain ⟨inside, -, hbody⟩ := hc.runs
      rw [declare, declareStmt, hbody.declare_eq] at hn
      have hrest := ih hn
      exact hrest
  | @simple _ _ _ statement _ _ _ _ hs _ _ ih =>
      rcases ih hn with hfirst | hrest
      · cases statement with
        | typeVar place declared _ _ _ =>
            simp only [declareStmt, Names.isTypeVar, Names.addTypeVar, List.contains_cons,
              Bool.or_eq_true, beq_iff_eq] at hfirst
            rcases hfirst with rfl | hbefore
            · exact .inr List.mem_cons_self
            · exact .inl hbefore
        | _ => first | exact .inl hfirst | simp [isSimple] at hs
      · obtain ⟨later, hm, hl⟩ := List.mem_filterMap.mp hrest
        exact .inr (List.mem_filterMap.mpr ⟨later, List.mem_cons_of_mem _ hm, hl⟩)

-- A type variable of the module has the name of its statement.
theorem Makes.typeVariableNames {statements : List (Names × Stmt)} {constants : List Constant}
    {aliases : List Alias} {typeVariables : List TypeVariable} {classes records : List StubClass}
    (h : Makes statements constants aliases typeVariables classes records) :
    typeVariables.map (·.name) = (statements.map (·.2)).filterMap typeVariableName? := by
  have hmakes := h.typeVariables
  clear h
  induction statements generalizing typeVariables with
  | nil =>
      cases hmakes
      rfl
  | cons first rest ih =>
      obtain ⟨names, statement⟩ := first
      cases statement with
      | typeVar place name declared constraints keywords =>
          cases hmakes with
          | cons hfirst hrest =>
              cases hfirst
              exact congrArg (name :: ·) (ih hrest)
      | _ => exact ih hmakes

end Live

end TypeStub
