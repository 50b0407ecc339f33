import TypeStub.Declare
import TypeStub.Proofs.Convert.Numbered

-- The types that the statements of a stub are read for, in the order in which they are converted.
namespace TypeStub

def Param.hint? : Param → Option Expr
  | .ordinary _ hint _ | .star _ hint | .doubleStar _ hint => hint
  | .bareStar | .ellipsis => none

def DefBody.types : DefBody → List Expr
  | .external => []
  | .declared params returns raises mutators =>
      params.flatMap (·.hint?.toList) ++ (returns.toList ++ (raises ++ mutators.map (·.2)))

-- The values that make an assignment a constant.
def Expr.isConstant : Expr → Bool
  | .ellipsis | .int _ | .bool _ => true
  | _ => false

-- The type that an assignment gives to its constant. Where it declares another name for its value,
-- a comment does not count.
def Assigned.hints : Assigned → List Expr
  | .declared hint _ => [hint]
  | .value given comment => if given.isConstant then comment.toList else []

def Assigned.synonyms : Assigned → List Expr
  | .declared _ _ => []
  | .value given _ => if given.isConstant then [] else [given]

def Stmt.memberTypes : Stmt → List Expr
  | .definition _ d => d.body.types
  | .assign _ _ assigned => assigned.hints
  | _ => []

-- The types that a statement of a module has to be read for, in their order.
def Stmt.types : Stmt → List Expr
  | .definition _ d => d.body.types
  | .classDef _ _ args body => args.map (·.value) ++ body.flatMap memberTypes
  | .assign _ _ assigned => assigned.hints ++ assigned.synonyms
  | .typeVar _ _ _ constraints _ => constraints
  | _ => []

namespace Build

open TypeStub.Convert

-- A run that keeps the names and converts, when it succeeds, these types one after another.
def ConvertsTypes {α : Type} (p : Build α) (types : List Expr) : Prop :=
  ∀ ⦃before : BuildState⦄ ⦃a : α⦄ ⦃after : BuildState⦄, p before = .ok a after →
    after.names = before.names ∧
      ConvertsEach (types.map (before.names, ·)) before.records after.records

section

variable {α β : Type} {p : Build α} {types more : List Expr}

theorem ConvertsTypes.pure (a : α) : ConvertsTypes (Pure.pure a) [] := by
  intro before a' after h
  obtain ⟨-, rfl⟩ := (EStateM.Result.ok.injEq ..).mp h
  exact ⟨rfl, .nil _⟩

theorem ConvertsTypes.fault (line : Int32) (cause : Cause) :
    ConvertsTypes (fault line cause : Build α) types := by
  intro before a after h
  exact absurd h (show EStateM.Result.error _ before ≠ .ok a after by simp)

theorem ConvertsTypes.bind {f : α → Build β} (hp : ConvertsTypes p types)
    (hf : ∀ a, ConvertsTypes (f a) more) : ConvertsTypes (p >>= f) (types ++ more) := by
  intro before b after h
  obtain ⟨a, middle, ha, hb⟩ := run_bind_ok h
  obtain ⟨hnames, hfirst⟩ := hp ha
  obtain ⟨hkept, hsecond⟩ := hf a hb
  rw [hnames] at hkept hsecond
  rw [List.map_append]
  exact ⟨hkept, hfirst.append hsecond⟩

theorem ConvertsTypes.bindNone {f : α → Build β} (hp : ConvertsTypes p types)
    (hf : ∀ a, ConvertsTypes (f a) []) : ConvertsTypes (p >>= f) types := by
  have h := hp.bind hf
  rwa [List.append_nil] at h

theorem ConvertsTypes.fault_bind (line : Int32) (cause : Cause) {f : β → Build α} :
    ConvertsTypes ((Build.fault line cause : Build β) >>= f) types := by
  intro before a after h
  obtain ⟨b, middle, hb, -⟩ := run_bind_ok h
  exact absurd hb (show EStateM.Result.error _ before ≠ .ok b middle by simp)

theorem ConvertsTypes.ite {c : Prop} [Decidable c] {q : Build α} (hp : c → ConvertsTypes p types)
    (hq : ¬c → ConvertsTypes q types) : ConvertsTypes (if c then p else q) types := by
  split
  · exact hp ‹_›
  · exact hq ‹_›

theorem ConvertsTypes.mapM {f : α → Build β} {part : α → List Expr} (as : List α)
    (hf : ∀ a, ConvertsTypes (f a) (part a)) : ConvertsTypes (as.mapM f) (as.flatMap part) := by
  induction as with
  | nil => exact .pure []
  | cons a rest ih =>
      rw [List.mapM_cons, List.flatMap_cons]
      exact (hf a).bind fun b => ih.bindNone fun bs => .pure _

theorem ConvertsTypes.foldlM {f : β → α → Build β} {part : α → List Expr} (as : List α) (b : β)
    (hf : ∀ b a, ConvertsTypes (f b a) (part a)) :
    ConvertsTypes (as.foldlM f b) (as.flatMap part) := by
  induction as generalizing b with
  | nil => exact .pure b
  | cons a rest ih =>
      rw [List.foldlM_cons, List.flatMap_cons]
      exact (hf b a).bind fun b' => ih b'

-- The names stay, so that what each result is by the names at hand, all of them are.
theorem ConvertsTypes.forall₂ {f : α → Build β} {part : α → List Expr} {R : Names → α → β → Prop}
    (hf : ∀ a, ConvertsTypes (f a) (part a))
    (hR : ∀ ⦃a before b after⦄, f a before = .ok b after → R before.names a b)
    {as : List α} {bs : List β} {before after : BuildState}
    (h : as.mapM f before = .ok bs after) : List.Forall₂ (R before.names) as bs := by
  induction as generalizing before bs after with
  | nil =>
      obtain ⟨rfl, -⟩ := (EStateM.Result.ok.injEq ..).mp h
      exact .nil
  | cons a rest ih =>
      rw [List.mapM_cons] at h
      obtain ⟨b, middle, hfirst, htail⟩ := run_bind_ok h
      obtain ⟨others, last, hothers, hlast⟩ := run_bind_ok htail
      obtain ⟨rfl, -⟩ := (EStateM.Result.ok.injEq ..).mp hlast
      have hnames := (hf a hfirst).1
      exact .cons (hR hfirst) (hnames ▸ ih hothers)

end

theorem typeAt_ok {line : Int32} {e : Expr} {before after : BuildState} {type : Ty}
    (h : typeAt line e before = .ok type after) : Converts before.names e type := by
  simp only [typeAt] at h
  split at h
  · rename_i found records hc
    obtain ⟨rfl, -⟩ := (EStateM.Result.ok.injEq ..).mp h
    exact ⟨_, _, hc⟩
  · simp at h

theorem converts_typeAt (line : Int32) (e : Expr) : ConvertsTypes (typeAt line e) [e] := by
  intro before type after h
  simp only [typeAt] at h
  split at h
  · rename_i found records hc
    obtain ⟨-, rfl⟩ := (EStateM.Result.ok.injEq ..).mp h
    exact ⟨rfl, .cons hc (.nil _)⟩
  · simp at h

theorem converts_typesAt (line : Int32) (types : List Expr) :
    ConvertsTypes (types.mapM (typeAt line)) types := by
  have h := ConvertsTypes.mapM types (converts_typeAt line)
  rwa [List.flatMap_singleton' types] at h

theorem typesAt_ok {line : Int32} {exprs : List Expr} {types : List Ty} {before after : BuildState}
    (h : exprs.mapM (typeAt line) before = .ok types after) :
    List.Forall₂ (Converts before.names) exprs types :=
  ConvertsTypes.forall₂ (converts_typeAt line) (fun _ _ _ _ => typeAt_ok) h

theorem converts_paramType (line : Int32) (hint default : Option Expr) :
    ConvertsTypes (paramType line hint default) hint.toList := by
  cases hint with
  | none => exact .pure _
  | some hint =>
      refine (converts_typeAt line hint).bindNone fun declared => ?_
      exact .ite (fun _ => .pure _) fun _ => .pure _

theorem converts_starType (line : Int32) (hint : Option Expr) :
    ConvertsTypes (starType line hint) hint.toList := by
  cases hint with
  | none => exact .pure _
  | some hint => exact (converts_typeAt line hint).bindNone fun type => .pure _

theorem converts_doubleStarType (line : Int32) (hint : Option Expr) :
    ConvertsTypes (doubleStarType line hint) hint.toList := by
  cases hint with
  | none => exact .pure _
  | some hint => exact (converts_typeAt line hint).bindNone fun type => .pure _

theorem converts_addParam (line : Int32) (scan : ParamScan) (param : Param) :
    ConvertsTypes (addParam line scan param) param.hint?.toList := by
  unfold addParam
  dsimp only
  split
  · exact .fault_bind _ _
  · refine .ite (fun _ => .fault_bind _ _) fun _ => ?_
    cases param with
    | ordinary name hint default =>
        exact (converts_paramType line hint default).bindNone fun type => .pure _
    | bareStar => exact .ite (fun _ => .fault_bind _ _) fun _ => .pure _
    | star name hint =>
        refine .ite (fun _ => .fault_bind _ _) fun _ => ?_
        exact (converts_starType line hint).bindNone fun type => .pure _
    | doubleStar name hint =>
        exact (converts_doubleStarType line hint).bindNone fun type => .pure _
    | ellipsis => exact .ite (fun _ => .fault_bind _ _) fun _ => .pure _

theorem converts_params (line : Int32) (written : List Param) :
    ConvertsTypes (params line written) (written.flatMap (·.hint?.toList)) := by
  refine (ConvertsTypes.foldlM written _ (converts_addParam line)).bindNone fun scan => ?_
  exact .ite (fun _ => .fault_bind _ _) fun _ => .pure scan

theorem converts_mutator (line : Int32) (scan : ParamScan) (written : Text × Expr) :
    ConvertsTypes (mutator line scan written) [written.2] := by
  refine .ite (fun _ => ?_) fun _ => .fault_bind _ _
  exact (converts_typeAt line written.2).bindNone fun type => .pure _

theorem converts_signature (line : Int32) (written : List Param) (returns : Option Expr)
    (raises : List Expr) (mutators : List (Text × Expr)) :
    ConvertsTypes (signature line written returns raises mutators)
      (DefBody.declared written returns raises mutators).types := by
  refine (converts_params line written).bind fun scan => ?_
  have hmutators : ConvertsTypes (mutators.mapM (mutator line scan)) (mutators.map (·.2)) := by
    have h := ConvertsTypes.mapM mutators (converts_mutator line scan)
    rwa [← List.map_eq_flatMap] at h
  have hrest : ∀ result : Ty, ConvertsTypes (do
      let exceptions ← raises.mapM (typeAt line)
      let mutators ← mutators.mapM (mutator line scan)
      return (⟨scan.params, scan.starArgs, scan.starStarArgs, result, exceptions, mutators⟩ :
        Signature)) (raises ++ mutators.map (·.2)) := fun result =>
    (converts_typesAt line raises).bind fun _ => hmutators.bindNone fun _ => .pure _
  cases returns with
  | none => exact (ConvertsTypes.pure Ty.anything).bind hrest
  | some e => exact (converts_typeAt line e).bind hrest

theorem converts_decorator (line : Int32) (d : Def) : ConvertsTypes (decorator line d) [] := by
  unfold decorator
  split
  · exact .pure _
  · exact .pure _
  · exact .fault _ _

theorem converts_definition (line : Int32) (d : Def) :
    ConvertsTypes (definition line d) d.body.types := by
  refine (converts_decorator line d).bind fun found => ?_
  cases d.body with
  | external => exact .pure _
  | declared params returns raises mutators =>
      exact (converts_signature line params returns raises mutators).bindNone fun s => .pure _

end Build

namespace Declare

open Build

theorem converts_constantOf (line : Int32) (comment : Option Expr) (type : Ty) :
    ConvertsTypes (constantOf line comment type) comment.toList := by
  cases comment with
  | none => exact .pure _
  | some e => exact (converts_typeAt line e).bindNone fun type => .pure _

theorem converts_declared (line : Int32) (assigned : Assigned) :
    ConvertsTypes (declared line assigned) assigned.hints := by
  cases assigned with
  | declared hint placeholder => exact (converts_typeAt line hint).bindNone fun type => .pure _
  | value given comment =>
      cases given with
      | ellipsis => exact converts_constantOf line comment _
      | int n =>
          exact .ite (fun _ => converts_constantOf line comment _) fun _ => .fault _ _
      | float x => exact .fault _ _
      | bool b => exact converts_constantOf line comment _
      | _ => exact .pure _

theorem converts_classStatement (classLine : Int32) (scan : ClassScan) (statement : Stmt) :
    ConvertsTypes (classStatement classLine scan statement) statement.memberTypes := by
  unfold classStatement
  split
  · exact (converts_definition _ _).bindNone fun d => .pure _
  · refine (converts_declared _ _).bindNone fun given => ?_
    cases given with
    | constant type => exact .pure _
    | synonym value =>
        dsimp only
        split
        · exact .pure _
        · exact .fault _ _
  · exact .fault _ _

theorem converts_classArgument (line : Int32) (heritage : Heritage) (arg : ClassArg) :
    ConvertsTypes (classArgument line heritage arg) [arg.value] := by
  refine .ite (fun _ => .fault_bind _ _) fun _ => ?_
  refine .ite (fun _ => .fault_bind _ _) fun _ => ?_
  refine (converts_typeAt line arg.value).bindNone fun type => ?_
  exact .ite (fun _ => .pure _) fun _ => .ite (fun _ => .pure _) fun _ => .pure _

theorem converts_merged {α : Type} (outcome : Except Fault α) :
    ConvertsTypes (merged outcome) [] := by
  cases outcome with
  | ok a => exact .pure a
  | error e =>
      intro before a after h
      exact absurd h (show EStateM.Result.error e before ≠ .ok a after by simp)

theorem converts_classOf (line : Int32) (name : Text) (args : List ClassArg)
    {contents : Build ClassScan} {types : List Expr} (hc : ConvertsTypes contents types) :
    ConvertsTypes (classOf line name args contents) (args.map (·.value) ++ types) := by
  have hargs := ConvertsTypes.foldlM args (⟨[], none⟩ : Heritage) (converts_classArgument line)
  rw [← List.map_eq_flatMap] at hargs
  refine hargs.bind fun heritage => hc.bindNone fun scan => ?_
  exact (converts_merged _).bindNone fun members => .pure _

theorem converts_typeVariable (line : Int32) (name declaredName : Text) (constraints : List Expr) :
    ConvertsTypes (typeVariable line name declaredName constraints) constraints := by
  refine .ite (fun _ => .fault_bind _ _) fun _ => ?_
  exact (converts_typesAt line constraints).bindNone fun types => .pure _

end Declare

end TypeStub
