import TypeStub.Proofs.Build.Parameters
import TypeStub.Proofs.Live.Declarations

-- What the types of definitions and of classes are made from, with the names that are known at the
-- place of each.
namespace TypeStub.Live

open TypeStub.Convert Declare Build

-- The type of a parameter: what its hint converts to, with None in it where that is the default, or
-- what its default tells. A bare star and an ellipsis have none of their own.
inductive ParameterType (names : Names) : Param → Ty → Prop
  | untyped (name : Text) (default : Option Expr) :
      ParameterType names (.ordinary name none default)
        ((default.map defaultType).getD (.named "object"))
  | hinted {name : Text} {hint : Expr} {default : Option Expr} {type : Ty}
      (h : Converts names hint type) (hd : default.any isNone = false) :
      ParameterType names (.ordinary name (some hint) default) type
  | optional {name : Text} {hint : Expr} {default : Option Expr} {type : Ty}
      (h : Converts names hint type) (hd : default.any isNone = true) :
      ParameterType names (.ordinary name (some hint) default)
        (.unionOf [type, .named "NoneType"])
  | star (name : Text) : ParameterType names (.star name none) (.named "tuple")
  | starOf {name : Text} {hint : Expr} {type : Ty} (h : Converts names hint type) :
      ParameterType names (.star name (some hint)) (.generic (.named "tuple") [type])
  | doubleStar (name : Text) : ParameterType names (.doubleStar name none) (.named "dict")
  | doubleStarOf {name : Text} {hint : Expr} {type : Ty} (h : Converts names hint type) :
      ParameterType names (.doubleStar name (some hint))
        (.generic (.named "dict") [.named "str", type])
  | bareStar : ParameterType names .bareStar .anything
  | ellipsis : ParameterType names .ellipsis .anything

-- The parameters of a list, taken one after another with these types.
def scanOf (scan : ParamScan) (written : List Param) (types : List Ty) : ParamScan :=
  (written.zip types).foldl (fun scan (param, type) => scan.add param type) scan

-- A signature whose types are those that are written in it.
structure MakesSignature (names : Names) (written : List Param) (returns : Option Expr)
    (raises : List Expr) (mutators : List (Text × Expr)) (s : Signature) : Prop where
  params : ∃ types, List.Forall₂ (ParameterType names) written types ∧
    let scan := scanOf .start written types
    s.params = scan.params ∧ s.starArgs = scan.starArgs ∧ s.starStarArgs = scan.starStarArgs
  untyped : returns = none → s.returns = .anything
  returns : ∀ e ∈ returns, Converts names e s.returns
  exceptions : List.Forall₂ (Converts names) raises s.exceptions
  mutators : List.Forall₂ (fun written made => made.name = written.1 ∧
    Converts names written.2 made.type) mutators s.mutators

-- A definition has a signature unless it is external.
inductive MakesDefinition (names : Names) : Def → Definition → Prop
  | external {d : Def} {made : Definition} (hd : d.body = .external) (hn : made.name = d.name)
      (hs : made.signature? = none) : MakesDefinition names d made
  | declared {d : Def} {made : Definition} {written : List Param} {returns : Option Expr}
      {raises : List Expr} {mutators : List (Text × Expr)} {s : Signature}
      (hd : d.body = .declared written returns raises mutators) (hn : made.name = d.name)
      (hs : made.signature? = some s) (h : MakesSignature names written returns raises mutators s) :
      MakesDefinition names d made

-- The parents of a class are its arguments but for the type nothing. The metaclass is the one with a
-- keyword.
def Inherits (names : Names) (args : List ClassArg) (parents : List Ty) (metaclass : Option Ty) :
    Prop :=
  ∃ types, List.Forall₂ (fun (arg : ClassArg) type => Converts names arg.value type) args types ∧
    parents = ((args.zip types).filter fun (arg, type) =>
      arg.keyword.isNone && type.kind != .nothing).map (·.2) ∧
    metaclass = ((args.zip types).find? (·.1.keyword.isSome)).map (·.2)

-- The constants that a class body assigns after some others. Each has its own type, or that of the
-- earlier constant that is its value.
inductive AssignsTypes (names : Names) : List Constant → List Stmt → List Constant → Prop
  | nil (before : List Constant) : AssignsTypes names before [] []
  | definition {before assigned : List Constant} {place : Place} {d : Def} {rest : List Stmt}
      (hr : AssignsTypes names before rest assigned) :
      AssignsTypes names before (.definition place d :: rest) assigned
  | typed {before assigned : List Constant} {place : Place} {target : Text} {given : Assigned}
      {type : Ty} {rest : List Stmt} (ht : AssignedType names given type)
      (hr : AssignsTypes names (before ++ [⟨target, type⟩]) rest assigned) :
      AssignsTypes names before (.assign place target given :: rest) (⟨target, type⟩ :: assigned)
  | copied {before assigned : List Constant} {place : Place} {target : Text} {value : Expr}
      {comment : Option Expr} {type : Ty} {rest : List Stmt}
      (ht : copiedType? before value = some type)
      (hr : AssignsTypes names (before ++ [⟨target, type⟩]) rest assigned) :
      AssignsTypes names before (.assign place target (.value value comment) :: rest)
        (⟨target, type⟩ :: assigned)

def definition? : Stmt → Option Def
  | .definition _ d => some d
  | _ => none

-- A class with the types that are written in its statement. The definitions merge as its members.
structure MakesTyped (names : Names) (args : List ClassArg) (body : List Stmt) (c : StubClass) :
    Prop where
  inherits : Inherits names args c.parents c.metaclass
  members : ∃ assigned properties defs, c.constants = assigned ++ properties ∧
    AssignsTypes names [] body assigned ∧
    List.Forall₂ (MakesDefinition names) (body.filterMap definition?) defs ∧
    Merge.Members defs c.methods properties

-- The definitions and the classes of live statements, each with the names at its place.
inductive Typed : List (Names × Stmt) → List Definition → List StubClass → Prop
  | nil : Typed [] [] []
  | definition {names : Names} {place : Place} {d : Def} {made : Definition}
      {rest : List (Names × Stmt)} {defs : List Definition} {classes : List StubClass}
      (hd : MakesDefinition names d made) (hr : Typed rest defs classes) :
      Typed ((names, .definition place d) :: rest) (made :: defs) classes
  | classDef {names : Names} {place : Place} {args : List ClassArg} {body : List Stmt}
      {c : StubClass} {rest : List (Names × Stmt)} {defs : List Definition}
      {classes : List StubClass} (hc : MakesTyped names args body c) (hr : Typed rest defs classes) :
      Typed ((names, .classDef place c.name args body) :: rest) defs (c :: classes)
  | simple {names : Names} {statement : Stmt} {rest : List (Names × Stmt)}
      {defs : List Definition} {classes : List StubClass} (hs : isSimple statement = true)
      (hr : Typed rest defs classes) : Typed ((names, statement) :: rest) defs classes

section

variable {line : Int32} {before after : BuildState}

theorem parameterType_ok {param : Param} {type : Ty}
    (h : parameterType line param before = .ok type after) :
    ParameterType before.names param type := by
  cases param with
  | ordinary name hint default =>
      cases hint with
      | none =>
          obtain ⟨rfl, -⟩ := (EStateM.Result.ok.injEq ..).mp h
          exact .untyped name default
      | some hint =>
          obtain ⟨declared, middle, htype, hrest⟩ := run_bind_ok h
          split at hrest <;> obtain ⟨rfl, -⟩ := (EStateM.Result.ok.injEq ..).mp hrest
          · rename_i hnone
            exact .optional (typeAt_ok htype) hnone
          · rename_i hother
            exact .hinted (typeAt_ok htype) (Bool.eq_false_iff.mpr hother)
  | star name hint =>
      cases hint with
      | none =>
          obtain ⟨rfl, -⟩ := (EStateM.Result.ok.injEq ..).mp h
          exact .star name
      | some hint =>
          obtain ⟨type, middle, htype, hrest⟩ := run_bind_ok h
          obtain ⟨rfl, -⟩ := (EStateM.Result.ok.injEq ..).mp hrest
          exact .starOf (typeAt_ok htype)
  | doubleStar name hint =>
      cases hint with
      | none =>
          obtain ⟨rfl, -⟩ := (EStateM.Result.ok.injEq ..).mp h
          exact .doubleStar name
      | some hint =>
          obtain ⟨type, middle, htype, hrest⟩ := run_bind_ok h
          obtain ⟨rfl, -⟩ := (EStateM.Result.ok.injEq ..).mp hrest
          exact .doubleStarOf (typeAt_ok htype)
  | bareStar =>
      obtain ⟨rfl, -⟩ := (EStateM.Result.ok.injEq ..).mp h
      exact .bareStar
  | ellipsis =>
      obtain ⟨rfl, -⟩ := (EStateM.Result.ok.injEq ..).mp h
      exact .ellipsis

theorem addParam_ok {scan next : ParamScan} {param : Param}
    (h : addParam line scan param before = .ok next after) :
    ∃ type, ParameterType before.names param type ∧ next = scan.add param type := by
  by_cases hallows : scan.Allows param
  · rw [addParam_eq hallows] at h
    obtain ⟨type, middle, htype, hlast⟩ := run_bind_ok h
    obtain ⟨rfl, -⟩ := (EStateM.Result.ok.injEq ..).mp hlast
    exact ⟨type, parameterType_ok htype, rfl⟩
  · obtain ⟨cause, -, hfault⟩ := addParam_refused line hallows
    rw [hfault] at h
    exact absurd h fault_ne_ok

theorem scan_ok {written : List Param} {scan last : ParamScan}
    (h : written.foldlM (addParam line) scan before = .ok last after) :
    ∃ types, List.Forall₂ (ParameterType before.names) written types ∧
      last = scanOf scan written types := by
  induction written generalizing scan before with
  | nil =>
      obtain ⟨rfl, -⟩ := (EStateM.Result.ok.injEq ..).mp h
      exact ⟨[], .nil, rfl⟩
  | cons param rest ih =>
      rw [List.foldlM_cons] at h
      obtain ⟨next, middle, hfirst, hrest⟩ := run_bind_ok h
      obtain ⟨type, htype, rfl⟩ := addParam_ok hfirst
      obtain ⟨types, htypes, rfl⟩ := ih hrest
      rw [(converts_addParam line scan param hfirst).1] at htypes
      exact ⟨type :: types, .cons htype htypes, rfl⟩

theorem mutator_ok {scan : ParamScan} {written : Text × Expr} {made : Mutator}
    (h : mutator line scan written before = .ok made after) :
    made.name = written.1 ∧ Converts before.names written.2 made.type := by
  obtain ⟨name, e⟩ := written
  unfold mutator at h
  dsimp only at h
  split at h
  · obtain ⟨type, middle, htype, hlast⟩ := run_bind_ok h
    obtain ⟨rfl, -⟩ := (EStateM.Result.ok.injEq ..).mp hlast
    exact ⟨rfl, typeAt_ok htype⟩
  · obtain ⟨_, _, hfault, -⟩ := run_bind_ok h
    exact absurd hfault fault_ne_ok

theorem signature_typed {written : List Param} {returns : Option Expr} {raises : List Expr}
    {mutators : List (Text × Expr)} {s : Signature}
    (h : signature line written returns raises mutators before = .ok s after) :
    MakesSignature before.names written returns raises mutators s := by
  obtain ⟨scan, read, hscan, hrest⟩ := run_bind_ok h
  obtain ⟨types, htypes, hlast⟩ := scan_ok (params_ok_iff.mp hscan).1
  have hnames : read.names = before.names := (converts_params line written hscan).1
  -- The rest of the signature, after a result that was read with the same names.
  have hmakes : ∀ (result : Ty) (known : BuildState), known.names = before.names →
      (returns = none → result = .anything) → (∀ e ∈ returns, Converts before.names e result) →
      (do
        let exceptions ← raises.mapM (typeAt line)
        let mutators ← mutators.mapM (mutator line scan)
        return (⟨scan.params, scan.starArgs, scan.starStarArgs, result, exceptions, mutators⟩ :
          Signature)) known = .ok s after →
      MakesSignature before.names written returns raises mutators s := by
    intro result known hknown hnone hsome hrun
    obtain ⟨exceptions, raised, hraises, hrest⟩ := run_bind_ok hrun
    obtain ⟨mutated, last, hmutators, hdone⟩ := run_bind_ok hrest
    obtain ⟨rfl, -⟩ := (EStateM.Result.ok.injEq ..).mp hdone
    have hraised : raised.names = before.names :=
      (converts_typesAt line raises hraises).1.trans hknown
    have hmutated := ConvertsTypes.forall₂ (converts_mutator line scan)
      (R := fun names written made => made.name = written.1 ∧ Converts names written.2 made.type)
      (fun _ _ _ _ => mutator_ok) hmutators
    exact ⟨⟨types, htypes, by rw [← hlast]; exact ⟨rfl, rfl, rfl⟩⟩, hnone, hsome,
      hknown ▸ typesAt_ok hraises, hraised ▸ hmutated⟩
  cases returns with
  | none => exact hmakes .anything read hnames (fun _ => rfl) (by simp) hrest
  | some e =>
      obtain ⟨result, later, hresult, hlast⟩ := run_bind_ok hrest
      refine hmakes result later ((converts_typeAt line e hresult).1.trans hnames) (by simp) ?_ hlast
      rintro _ ⟨⟩
      exact hnames ▸ typeAt_ok hresult

theorem definition_typed {d : Def} {made : Definition}
    (h : Build.definition line d before = .ok made after) :
    MakesDefinition before.names d made ∧ after.names = before.names := by
  refine ⟨?_, (converts_definition line d h).1⟩
  obtain ⟨found, middle, hfound, hrest⟩ := run_bind_ok h
  have hnames : middle.names = before.names := (converts_decorator line d hfound).1
  cases hbody : d.body with
  | external =>
      simp only [hbody] at hrest
      obtain ⟨rfl, -⟩ := (EStateM.Result.ok.injEq ..).mp hrest
      exact .external hbody rfl rfl
  | declared written returns raises mutators =>
      simp only [hbody] at hrest
      obtain ⟨s, later, hs, hdone⟩ := run_bind_ok hrest
      obtain ⟨rfl, -⟩ := (EStateM.Result.ok.injEq ..).mp hdone
      exact .declared hbody rfl rfl (hnames ▸ signature_typed hs)

-- An argument has its type read; where it is the metaclass, it is the first and last one.
theorem classArgument_ok {heritage next : Heritage} {arg : ClassArg}
    (h : classArgument line heritage arg before = .ok next after) :
    ∃ type, Converts before.names arg.value type ∧ heritage.metaclass = none ∧
      next.parents = heritage.parents ++
        (if arg.keyword.isNone && type.kind != .nothing then [type] else []) ∧
      next.metaclass = if arg.keyword.isSome then some type else none := by
  unfold classArgument at h
  dsimp only at h
  split at h
  · obtain ⟨_, _, hfault, -⟩ := run_bind_ok h
    exact absurd hfault fault_ne_ok
  split at h
  · obtain ⟨_, _, hfault, -⟩ := run_bind_ok h
    exact absurd hfault fault_ne_ok
  rename_i hmetaclass
  have hnone : heritage.metaclass = none := by simpa using hmetaclass
  obtain ⟨type, middle, htype, hlast⟩ := run_bind_ok h
  refine ⟨type, typeAt_ok htype, hnone, ?_⟩
  split at hlast
  · rename_i hkeyword
    obtain ⟨rfl, -⟩ := (EStateM.Result.ok.injEq ..).mp hlast
    simp [hkeyword, Option.isNone_eq_false_iff.mpr hkeyword]
  · rename_i hkeyword
    split at hlast <;> obtain ⟨rfl, -⟩ := (EStateM.Result.ok.injEq ..).mp hlast <;> simp_all

theorem inherits_ok {args : List ClassArg} {heritage last : Heritage}
    (h : args.foldlM (classArgument line) heritage before = .ok last after) :
    ∃ parents metaclass, Inherits before.names args parents metaclass ∧
      last.parents = heritage.parents ++ parents ∧
      last.metaclass = heritage.metaclass.or metaclass := by
  induction args generalizing heritage before with
  | nil =>
      obtain ⟨rfl, -⟩ := (EStateM.Result.ok.injEq ..).mp h
      exact ⟨[], none, ⟨[], .nil, rfl, rfl⟩, by simp, by simp⟩
  | cons arg rest ih =>
      rw [List.foldlM_cons] at h
      obtain ⟨next, middle, hfirst, hrest⟩ := run_bind_ok h
      obtain ⟨type, htype, hnone, hparents, hmetaclass⟩ := classArgument_ok hfirst
      obtain ⟨parents, metaclass, ⟨types, htypes, rfl, rfl⟩, hmore, hlast⟩ := ih hrest
      rw [(converts_classArgument line heritage arg hfirst).1] at htypes
      refine ⟨_, _, ⟨type :: types, .cons htype htypes, rfl, rfl⟩, ?_, ?_⟩
      · rw [hmore, hparents, List.append_assoc, List.zip_cons_cons, List.filter_cons]
        split <;> simp_all
      · rw [hlast, hmetaclass, hnone, List.zip_cons_cons, List.find?_cons]
        cases arg.keyword <;> simp

theorem ClassRuns.typed {constants assigned : List Constant} {body : List Stmt}
    {defs : List Definition} (h : ClassRuns before constants body assigned defs after) :
    AssignsTypes before.names constants body assigned ∧
      List.Forall₂ (MakesDefinition before.names) (body.filterMap definition?) defs ∧
      after.names = before.names := by
  induction h with
  | nil state constants => exact ⟨.nil constants, .nil, rfl⟩
  | definition hd _ ih =>
      obtain ⟨hmade, hnames⟩ := definition_typed hd
      rw [hnames] at ih
      exact ⟨.definition ih.1, .cons hmade ih.2.1, ih.2.2⟩
  | @assign state next last before assigned place target given found type rest defs hd ht _ ih =>
      rw [(converts_declared place.line given hd).1] at ih
      refine ⟨?_, ih.2⟩
      rcases declared_ok hd with ⟨type', rfl, -, -, htype⟩ | ⟨value, rfl, -, hs, -, -⟩
      · obtain rfl := Option.some.inj ht
        exact .typed htype ih.1
      · cases given with
        | declared hint placeholder => simp [Assigned.synonyms] at hs
        | value written comment =>
            have hwritten : written = value := by
              rw [Assigned.synonyms] at hs
              split at hs
              · simp at hs
              · exact List.singleton_inj.mp hs
            exact .copied (hwritten ▸ ht) ih.1

theorem MakesClass.typed {args : List ClassArg} {body : List Stmt}
    {assigned properties : List Constant} {defs : List Definition} {c : StubClass}
    (h : MakesClass line args body before assigned properties defs c after) :
    MakesTyped before.names args body c ∧ after.names = before.names := by
  obtain ⟨inside, hargs, hruns⟩ := h.runs
  obtain ⟨parents, metaclass, hinherits, hparents, hmetaclass⟩ := inherits_ok hargs
  obtain ⟨hassigns, hdefs, hlast⟩ := hruns.typed
  have hnames : inside.names = before.names := by
    have hfold := ConvertsTypes.foldlM args (⟨[], none⟩ : Heritage) (converts_classArgument line)
    exact (hfold hargs).1
  rw [hnames] at hassigns hdefs hlast
  obtain rfl : c.parents = parents := by simpa using hparents
  obtain rfl : c.metaclass = metaclass := by simpa using hmetaclass
  refine ⟨⟨hinherits, assigned, properties, defs, h.constants, hassigns, hdefs, h.members⟩, hlast⟩

-- What live statements build has the types that are written in them.
theorem Runs.typed {live : List Stmt} {defs : List Definition} {classes : List StubClass}
    (h : Runs before live defs classes after) : Typed (known before.names live) defs classes := by
  induction h with
  | nil state => exact .nil
  | definition hd _ ih =>
      obtain ⟨hmade, hnames⟩ := definition_typed hd
      rw [hnames] at ih
      exact .definition hmade ih
  | classDef hn hc _ ih =>
      obtain ⟨hmade, hnames⟩ := hc.typed
      rw [hnames] at ih
      subst hn
      exact .classDef hmade ih
  | @simple state next last statement items rest defs classes hs hi _ ih =>
      have hflat : reachedStmt .standard [] statement = [] := by cases statement <;> trivial
      rw [(makesOne hflat hi).1] at ih
      exact .simple hs ih

end

end TypeStub.Live
