import Mathlib.Data.List.Forall2
import TypeStub.Declare
import TypeStub.Proofs.Ensures
import TypeStub.Proofs.Syntax.Alike

-- Statements that are alike declare the same, or fail for one cause on related lines.
namespace TypeStub

def Lines (ρ : Int32 → Int32 → Prop) : Option Int → Option Int → Prop :=
  Option.Rel fun a b => ∃ n m, a = Int32.toInt n ∧ b = Int32.toInt m ∧ ρ n m

structure Fault.Alike (ρ : Int32 → Int32 → Prop) (f g : Fault) : Prop where
  cause : f.cause = g.cause
  lines : Lines ρ f.line g.line

-- Outcomes that are related, or faults that are alike.
inductive Agreeing {α : Type} (ρ : Int32 → Int32 → Prop) (R : α → α → Prop) :
    Except Fault α → Except Fault α → Prop
  | ok {a b : α} : R a b → Agreeing ρ R (.ok a) (.ok b)
  | error {f g : Fault} : f.Alike ρ g → Agreeing ρ R (.error f) (.error g)

section

variable {α β : Type} {ρ : Int32 → Int32 → Prop} {R : α → α → Prop} {Q : β → β → Prop}

theorem Fault.alike_at {n m : Int32} (h : ρ n m) (cause : Cause) :
    (Fault.at n cause).Alike ρ (.at m cause) :=
  ⟨rfl, .some ⟨n, m, rfl, rfl, h⟩⟩

theorem Agreeing.bind {p q : Except Fault α} {f g : α → Except Fault β} (hp : Agreeing ρ R p q)
    (hf : ∀ a b, R a b → Agreeing ρ Q (f a) (g b)) : Agreeing ρ Q (p >>= f) (q >>= g) := by
  cases hp with
  | ok hab => exact hf _ _ hab
  | error h => exact .error h

theorem Agreeing.bindEq {p q : Except Fault α} {f g : α → Except Fault β} (hp : Agreeing ρ Eq p q)
    (hf : ∀ a, Agreeing ρ Q (f a) (g a)) : Agreeing ρ Q (p >>= f) (q >>= g) :=
  hp.bind fun a _ hab => hab ▸ hf a

theorem Agreeing.ite {c : Prop} [Decidable c] {p q p' q' : Except Fault α} (hp : Agreeing ρ R p q)
    (hq : Agreeing ρ R p' q') : Agreeing ρ R (if c then p else p') (if c then q else q') := by
  split
  · exact hp
  · exact hq

theorem Agreeing.mapM {f g : α → Except Fault β} (h : ∀ a, Agreeing ρ Eq (f a) (g a)) (as : List α) :
    Agreeing ρ Eq (as.mapM f) (as.mapM g) := by
  induction as with
  | nil => exact .ok rfl
  | cons a rest ih =>
      rw [List.mapM_cons, List.mapM_cons]
      exact (h a).bindEq fun b => ih.bindEq fun bs => .ok rfl

end

namespace Merge

variable {ρ : Int32 → Int32 → Prop} {line other : Option Int}

-- Merging uses a line for its faults only.
theorem alike_unhandled (h : Lines ρ line other) (d : Definition) :
    (unhandled line d).Alike ρ (unhandled other d) := ⟨rfl, h⟩

theorem agree_accessor (h : Lines ρ line other) (d : Definition) :
    Agreeing ρ Eq (accessor line d) (accessor other d) := by
  unfold accessor
  cases d.signature? with
  | none => exact .error (alike_unhandled h d)
  | some signature => exact .ite (.ok rfl) (.error (alike_unhandled h d))

theorem agree_property (h : Lines ρ line other) (group : List Definition) :
    Agreeing ρ Eq (property line group) (property other group) :=
  .bindEq (.mapM (agree_accessor h) group) fun _ => .ok rfl

theorem agree_function (h : Lines ρ line other) (group : List Definition) :
    Agreeing ρ Eq (function line group) (function other group) := by
  unfold function
  dsimp only
  split
  · exact .ite (.ok rfl) (.error ⟨rfl, h⟩)
  · exact .ite (.ok rfl) (.error ⟨rfl, h⟩)
  · exact .error ⟨rfl, h⟩

theorem agree_checkRecognized (h : Lines ρ line other) (group : List Definition) :
    Agreeing ρ Eq (checkRecognized line group) (checkRecognized other group) := by
  unfold checkRecognized
  cases group.find? (·.decorator.role == .unrecognized) with
  | none => exact .ok rfl
  | some d => exact .error (alike_unhandled h d)

theorem agree_member (h : Lines ρ line other) (group : List Definition) :
    Agreeing ρ Eq (member line group) (member other group) := by
  refine .bindEq (agree_checkRecognized h group) fun _ => .ite (.ite ?_ (.error ⟨rfl, h⟩)) ?_
  · exact (agree_property h group).bindEq fun _ => .ok rfl
  · exact (agree_function h group).bindEq fun _ => .ok rfl

theorem agree_classMembers (h : Lines ρ line other) (defs : List Definition) :
    Agreeing ρ Eq (classMembers line defs) (classMembers other defs) :=
  .mapM (agree_member h) (groups defs)

end Merge

namespace Prescan

variable {ρ : Int32 → Int32 → Prop} {target : Target}

mutual

-- The pass before building looks at the same branches.
theorem agree_statement : ∀ (path : Path) (scan : Prescan) {s r : Stmt}, s.Alike ρ r →
    Agreeing ρ Eq (statement target path scan s) (statement target path scan r)
  | path, scan, _, _, .conditional isElif condition hline hthen helse => by
      rw [statement, statement]
      cases Condition.evaluate target condition with
      | error e => exact .error (Fault.alike_at hline _)
      | ok live =>
          cases live with
          | true => exact agree_body _ 0 _ hthen
          | false => exact agree_body _ 0 _ helse
  | path, scan, _, _, .classDef name args _ hbody => by
      rw [statement, statement]
      exact agree_body _ 0 _ hbody
  | _, _, _, _, .typeVar .. => .ok rfl
  | _, _, _, _, .definition .. => .ok rfl
  | _, _, _, _, .assign .. => .ok rfl
  | _, _, _, _, .constant .. => .ok rfl
  | _, _, _, _, .importModules .. => .ok rfl
  | _, _, _, _, .importFrom .. => .ok rfl
  | _, _, _, _, .importAll .. => .ok rfl

theorem agree_body : ∀ (path : Path) (position : Nat) (scan : Prescan) {first other : List Stmt},
    Stmt.AllAlike ρ first other →
      Agreeing ρ Eq (body target path position scan first) (body target path position scan other)
  | _, _, _, _, _, .nil => .ok rfl
  | path, position, scan, _, _, .cons (s := s) (r := r) hs hrest => by
      rw [body, body]
      have hfirst := agree_statement (position :: path) scan hs
      generalize statement target (position :: path) scan s = left,
        statement target (position :: path) scan r = right at hfirst ⊢
      cases hfirst with
      | error h => exact .error h
      | ok hscan => exact hscan ▸ agree_body path (position + 1) _ hrest

end

end Prescan

namespace Build

-- Builds that end alike from every state. A fault may leave any state behind.
inductive Ends {α : Type} (ρ : Int32 → Int32 → Prop) (R : α → α → Prop) :
    EStateM.Result Fault BuildState α → EStateM.Result Fault BuildState α → Prop
  | ok {a b : α} {state : BuildState} : R a b → Ends ρ R (.ok a state) (.ok b state)
  | error {f g : Fault} {left right : BuildState} : f.Alike ρ g →
      Ends ρ R (.error f left) (.error g right)

def Pair {α : Type} (ρ : Int32 → Int32 → Prop) (R : α → α → Prop) (p q : Build α) : Prop :=
  ∀ state, Ends ρ R (p state) (q state)

section

variable {α β : Type} {ρ : Int32 → Int32 → Prop} {R : α → α → Prop} {Q : β → β → Prop}
  {p q : Build α} {n m : Int32}

theorem Pair.pure {a b : α} (h : R a b) : Pair ρ R (Pure.pure a) (Pure.pure b) := fun _ => .ok h

theorem Pair.bind {f g : α → Build β} (hp : Pair ρ R p q)
    (hf : ∀ a b, R a b → Pair ρ Q (f a) (g b)) : Pair ρ Q (p >>= f) (q >>= g) := by
  intro state
  have hfirst := hp state
  simp only [Bind.bind, EStateM.bind]
  generalize p state = left, q state = right at hfirst ⊢
  cases hfirst with
  | ok hab => exact hf _ _ hab _
  | error h => exact .error h

theorem Pair.bindEq {f g : α → Build β} (hp : Pair ρ Eq p q) (hf : ∀ a, Pair ρ Q (f a) (g a)) :
    Pair ρ Q (p >>= f) (q >>= g) := hp.bind fun a _ hab => hab ▸ hf a

-- What comes after two builds starts from a result of theirs.
theorem Pair.bindOf {f g : α → Build β} {P : α → Prop} (hp : Pair ρ Eq p q)
    (he : Ensures (fun _ => True) p P) (hf : ∀ a, P a → Pair ρ Q (f a) (g a)) :
    Pair ρ Q (p >>= f) (q >>= g) := by
  intro state
  have hfirst := hp state
  have hresult : ∀ a after, p state = .ok a after → P a := fun _ _ h => (he trivial h).1
  simp only [Bind.bind, EStateM.bind]
  generalize p state = left, q state = right at hfirst hresult ⊢
  cases hfirst with
  | ok hab => exact hab ▸ hf _ (hresult _ _ rfl) _
  | error h => exact .error h

theorem Pair.ite {c : Prop} [Decidable c] {p' q' : Build α} (hp : Pair ρ R p q)
    (hq : Pair ρ R p' q') : Pair ρ R (if c then p else p') (if c then q else q') := by
  split
  · exact hp
  · exact hq

theorem Pair.mapM {f g : α → Build β} (h : ∀ a, Pair ρ Eq (f a) (g a)) (as : List α) :
    Pair ρ Eq (as.mapM f) (as.mapM g) := by
  induction as with
  | nil => exact .pure rfl
  | cons a rest ih =>
      rw [List.mapM_cons, List.mapM_cons]
      exact (h a).bindEq fun b => ih.bindEq fun bs => .pure rfl

theorem Pair.foldlM {f g : β → α → Build β} (h : ∀ b a, Pair ρ Eq (f b a) (g b a)) (as : List α)
    (b : β) : Pair ρ Eq (as.foldlM f b) (as.foldlM g b) := by
  induction as generalizing b with
  | nil => exact .pure rfl
  | cons a rest ih =>
      rw [List.foldlM_cons, List.foldlM_cons]
      exact (h b a).bindEq ih

-- What does not mention a line does the same twice and never fails.
theorem Pair.total (h : ∀ state, ∃ a after, p state = .ok a after) : Pair ρ Eq p p := by
  intro state
  obtain ⟨a, after, ha⟩ := h state
  rw [ha]
  exact .ok rfl

theorem pair_fault (h : ρ n m) (cause : Cause) : Pair ρ R (fault n cause) (fault m cause) :=
  fun _ => .error (Fault.alike_at h cause)

theorem pair_fault_bind {f g : β → Build α} (h : ρ n m) (cause : Cause) :
    Pair ρ R (fault n cause >>= f) (fault m cause >>= g) :=
  .bind (R := fun _ _ => False) (pair_fault h cause) fun _ _ => False.elim

theorem pair_typeAt (h : ρ n m) (e : Expr) : Pair ρ Eq (typeAt n e) (typeAt m e) := by
  intro state
  simp only [typeAt]
  cases Convert.type state.names e state.records with
  | ok type records => exact .ok rfl
  | error cause records => exact .error (Fault.alike_at h _)

theorem pair_paramType (h : ρ n m) (hint default : Option Expr) :
    Pair ρ Eq (paramType n hint default) (paramType m hint default) := by
  cases hint with
  | none => exact .pure rfl
  | some hint => exact (pair_typeAt h hint).bindEq fun _ => .ite (.pure rfl) (.pure rfl)

theorem pair_starType (h : ρ n m) (hint : Option Expr) :
    Pair ρ Eq (starType n hint) (starType m hint) := by
  cases hint with
  | none => exact .pure rfl
  | some hint => exact (pair_typeAt h hint).bindEq fun _ => .pure rfl

theorem pair_doubleStarType (h : ρ n m) (hint : Option Expr) :
    Pair ρ Eq (doubleStarType n hint) (doubleStarType m hint) := by
  cases hint with
  | none => exact .pure rfl
  | some hint => exact (pair_typeAt h hint).bindEq fun _ => .pure rfl

theorem pair_addParam (h : ρ n m) (scan : ParamScan) (param : Param) :
    Pair ρ Eq (addParam n scan param) (addParam m scan param) := by
  unfold addParam
  dsimp only
  split
  · exact pair_fault_bind h _
  · refine .ite (pair_fault_bind h _) ?_
    cases param with
    | ordinary name hint default => exact (pair_paramType h hint default).bindEq fun _ => .pure rfl
    | bareStar => exact .ite (pair_fault_bind h _) (.pure rfl)
    | star name hint =>
        refine .ite (pair_fault_bind h _) ?_
        exact (pair_starType h hint).bindEq fun _ => .pure rfl
    | doubleStar name hint => exact (pair_doubleStarType h hint).bindEq fun _ => .pure rfl
    | ellipsis => exact .ite (pair_fault_bind h _) (.pure rfl)

theorem pair_params (h : ρ n m) (written : List Param) :
    Pair ρ Eq (params n written) (params m written) :=
  (Pair.foldlM (pair_addParam h) written ParamScan.start).bindEq fun _ =>
    .ite (pair_fault_bind h _) (.pure rfl)

theorem pair_mutator (h : ρ n m) (scan : ParamScan) (written : Text × Expr) :
    Pair ρ Eq (mutator n scan written) (mutator m scan written) :=
  .ite ((pair_typeAt h written.2).bindEq fun _ => .pure rfl) (pair_fault_bind h _)

theorem pair_signature (h : ρ n m) (written : List Param) (returns : Option Expr)
    (raises : List Expr) (mutators : List (Text × Expr)) :
    Pair ρ Eq (signature n written returns raises mutators)
      (signature m written returns raises mutators) := by
  refine (pair_params h written).bindEq fun scan => ?_
  have hrest (result : Ty) : Pair ρ Eq
      (do let exceptions ← raises.mapM (typeAt n)
          let mutators ← mutators.mapM (mutator n scan)
          return (⟨scan.params, scan.starArgs, scan.starStarArgs, result, exceptions, mutators⟩ :
            Signature))
      (do let exceptions ← raises.mapM (typeAt m)
          let mutators ← mutators.mapM (mutator m scan)
          return ⟨scan.params, scan.starArgs, scan.starStarArgs, result, exceptions, mutators⟩) :=
    (Pair.mapM (pair_typeAt h) raises).bindEq fun _ =>
      (Pair.mapM (pair_mutator h scan) mutators).bindEq fun _ => .pure rfl
  cases returns with
  | none => exact Pair.bindEq (.pure rfl) hrest
  | some type => exact (pair_typeAt h type).bindEq hrest

theorem pair_decorator (h : ρ n m) (d : Def) : Pair ρ Eq (decorator n d) (decorator m d) := by
  unfold decorator
  split
  · exact .pure rfl
  · exact .pure rfl
  · exact pair_fault h _

theorem pair_definition (h : ρ n m) (d : Def) : Pair ρ Eq (definition n d) (definition m d) := by
  refine (pair_decorator h d).bindEq fun _ => ?_
  cases d.body with
  | external => exact .pure rfl
  | declared params returns raises mutators =>
      exact (pair_signature h params returns raises mutators).bindEq fun _ => .pure rfl

end

end Build

namespace Declare

open Build

variable {ρ : Int32 → Int32 → Prop} {n m : Int32} {liveness : Liveness}

theorem pair_constantOf (h : ρ n m) (comment : Option Expr) (type : Ty) :
    Pair ρ Eq (constantOf n comment type) (constantOf m comment type) := by
  cases comment with
  | none => exact .pure rfl
  | some e => exact (pair_typeAt h e).bindEq fun _ => .pure rfl

theorem pair_declared (h : ρ n m) (assigned : Assigned) :
    Pair ρ Eq (declared n assigned) (declared m assigned) := by
  cases assigned with
  | declared hint placeholder => exact (pair_typeAt h hint).bindEq fun _ => .pure rfl
  | value given comment =>
      cases given with
      | ellipsis => exact pair_constantOf h comment _
      | int value => exact .ite (pair_constantOf h comment _) (pair_fault h _)
      | float => exact pair_fault h _
      | bool => exact pair_constantOf h comment _
      | _ => exact .pure rfl

-- However a name gets a type and no value, it is a constant of that type.
theorem declared_typed {type : Expr} {assigned : Assigned} (h : assigned.Typed type) (n : Int32) :
    declared n assigned = do return .constant (← typeAt n type) := by
  cases h <;> rfl

theorem pair_typed (h : ρ n m) {type : Expr} {a b : Assigned} (ha : a.Typed type)
    (hb : b.Typed type) : Pair ρ Eq (declared n a) (declared m b) := by
  rw [declared_typed ha, declared_typed hb]
  exact (pair_typeAt h type).bindEq fun _ => .pure rfl

theorem pair_classStatement (hclass : ρ n m) (scan : ClassScan) {s r : Stmt} (h : s.Alike ρ r) :
    Pair ρ Eq (classStatement n scan s) (classStatement m scan r) := by
  have hassign {line other : Int32} (target : Text) {a b : Assigned}
      (hdeclared : Pair ρ Eq (declared line a) (declared other b)) (p q : Place)
      (hp : p.line = line) (hq : q.line = other) :
      Pair ρ Eq (classStatement n scan (.assign p target a))
        (classStatement m scan (.assign q target b)) := by
    subst hp hq
    refine hdeclared.bindEq fun made => ?_
    cases made with
    | constant type => exact .pure rfl
    | synonym value =>
        dsimp only
        cases copiedType? scan.constants value with
        | some type => exact .pure rfl
        | none => exact pair_fault hclass _
  cases h with
  | definition d hline => exact (pair_definition hline d).bindEq fun _ => .pure rfl
  | assign target a hline => exact hassign target (pair_declared hline a) _ _ rfl rfl
  | constant target hline ha hb => exact hassign target (pair_typed hline ha hb) _ _ rfl rfl
  | classDef name args hline hbody => exact pair_fault hline _
  | conditional isElif condition hline => exact pair_fault hline _
  | typeVar name declaredName constraints keywords hline => exact pair_fault hline _
  | importModules modules hline => exact pair_fault hline _
  | importFrom module names hline => exact pair_fault hline _
  | importAll module hline => exact pair_fault hline _

mutual

theorem pair_classMember (hclass : ρ n m) : ∀ (path : Path) (scan : ClassScan) {s r : Stmt},
    s.Alike ρ r →
      Pair ρ Eq (classMember liveness n path scan s) (classMember liveness m path scan r)
  | path, scan, _, _, .conditional isElif condition hline hthen helse => by
      rw [classMember, classMember]
      exact .ite (pair_classBody hclass _ 0 scan hthen) (pair_classBody hclass _ 0 scan helse)
  | _, scan, _, _, .definition d hline => pair_classStatement hclass scan (.definition d hline)
  | _, scan, _, _, .classDef name args hline hbody =>
      pair_classStatement hclass scan (.classDef name args hline hbody)
  | _, scan, _, _, .assign target a hline => pair_classStatement hclass scan (.assign target a hline)
  | _, scan, _, _, .constant target hline ha hb =>
      pair_classStatement hclass scan (.constant target hline ha hb)
  | _, scan, _, _, .typeVar name declaredName constraints keywords hline =>
      pair_classStatement hclass scan (.typeVar name declaredName constraints keywords hline)
  | _, scan, _, _, .importModules modules hline =>
      pair_classStatement hclass scan (.importModules modules hline)
  | _, scan, _, _, .importFrom module names hline =>
      pair_classStatement hclass scan (.importFrom module names hline)
  | _, scan, _, _, .importAll module hline =>
      pair_classStatement hclass scan (.importAll module hline)

theorem pair_classBody (hclass : ρ n m) : ∀ (path : Path) (position : Nat) (scan : ClassScan)
    {body other : List Stmt}, Stmt.AllAlike ρ body other →
      Pair ρ Eq (classBody liveness n path position scan body)
        (classBody liveness m path position scan other)
  | _, _, _, _, _, .nil => .pure rfl
  | path, position, scan, _, _, .cons hs hrest => by
      rw [classBody, classBody]
      exact (pair_classMember hclass (position :: path) scan hs).bindEq fun scan =>
        pair_classBody hclass path (position + 1) scan hrest

end

theorem pair_classArgument (h : ρ n m) (heritage : Heritage) (arg : ClassArg) :
    Pair ρ Eq (classArgument n heritage arg) (classArgument m heritage arg) := by
  refine .ite (pair_fault_bind h _) (.ite (pair_fault_bind h _) ?_)
  refine (pair_typeAt h arg.value).bindEq fun _ => ?_
  exact .ite (.pure rfl) (.ite (.pure rfl) (.pure rfl))

theorem pair_merged {α : Type} {R : α → α → Prop} {p q : Except Fault α} (h : Agreeing ρ R p q) :
    Pair ρ R (merged p) (merged q) := by
  cases h with
  | ok hab => exact .pure hab
  | error h => exact fun _ => .error h

theorem pair_classOf (h : ρ n m) (name : Text) (args : List ClassArg)
    {contents others : Build ClassScan} (hc : Pair ρ Eq contents others) :
    Pair ρ Eq (classOf n name args contents) (classOf m name args others) := by
  refine (Pair.foldlM (pair_classArgument h) args _).bindEq fun _ => hc.bindEq fun scan => ?_
  have hmembers := Merge.agree_classMembers (.some ⟨n, m, rfl, rfl, h⟩) scan.definitions
  exact (pair_merged hmembers).bindEq fun _ => .pure rfl

-- Items that differ in nothing but the line of a class.
inductive Item.Alike (ρ : Int32 → Int32 → Prop) : Item → Item → Prop
  | classDef {n m : Int32} (c : StubClass) : ρ n m → Alike ρ (.classDef n c) (.classDef m c)
  | other {item : Item} : item.classLine? = none → Alike ρ item item

def ItemsAlike (ρ : Int32 → Int32 → Prop) : List Item → List Item → Prop :=
  List.Forall₂ (Item.Alike ρ)

theorem itemsAlike_of_none {items : List Item} (h : ∀ item ∈ items, item.classLine? = none) :
    ItemsAlike ρ items items := by
  induction items with
  | nil => exact .nil
  | cons item rest ih =>
      obtain ⟨hfirst, hrest⟩ := List.forall_mem_cons.mp h
      exact .cons (.other hfirst) (ih hrest)

theorem pair_moduleAssignment (h : ρ n m) (target : Text) {a b : Assigned}
    (hdeclared : Pair ρ Eq (declared n a) (declared m b)) :
    Pair ρ (ItemsAlike ρ) (do return [← moduleAssignment n target a])
      (do return [← moduleAssignment m target b]) := by
  have hitem : Pair ρ (Item.Alike ρ) (moduleAssignment n target a)
      (moduleAssignment m target b) := by
    refine hdeclared.bindEq fun made => ?_
    cases made with
    | constant type => exact .pure (.other rfl)
    | synonym value => exact (pair_typeAt h value).bindEq fun _ => .pure (.other rfl)
  exact hitem.bind fun _ _ hmade => .pure (.cons hmade .nil)

theorem pair_typeVariable (h : ρ n m) (name declaredName : Text) (constraints : List Expr) :
    Pair ρ (Item.Alike ρ) (typeVariable n name declaredName constraints)
      (typeVariable m name declaredName constraints) := by
  refine .ite (pair_fault_bind h _) ?_
  exact (Pair.mapM (pair_typeAt h) constraints).bindEq fun _ => .pure (.other rfl)

theorem pair_importedMembers (module : Text) (imported : List ImportedName) :
    Pair ρ (ItemsAlike ρ) (do return (← imported.mapM (importedMember module)).filterMap id)
      (do return (← imported.mapM (importedMember module)).filterMap id) := by
  have hadd (name target : Text) : Pair ρ Eq (addImport name target) (addImport name target) :=
    .total fun _ => ⟨_, _, rfl⟩
  have hmember (one : ImportedName) :
      Pair ρ Eq (importedMember module one) (importedMember module one) :=
    (hadd _ _).bindEq fun _ => .ite (.pure rfl) (.pure rfl)
  have hother (one : ImportedName) : Ensures (fun _ => True) (importedMember module one)
      fun made => ∀ item ∈ made, item.classLine? = none :=
    .bind .any fun _ _ => .ite (fun _ => .pure (by simp)) fun _ => .pure (by simp [Item.classLine?])
  refine (Pair.mapM hmember imported).bindOf (.mapM fun one _ => hother one) fun made hmade => ?_
  refine .pure (itemsAlike_of_none fun item hitem => ?_)
  obtain ⟨one, hone, rfl⟩ := List.mem_filterMap.mp hitem
  exact hmade _ hone item rfl

mutual

theorem pair_moduleStatement : ∀ (path : Path) {s r : Stmt}, s.Alike ρ r →
    Pair ρ (ItemsAlike ρ) (moduleStatement liveness path s) (moduleStatement liveness path r)
  | path, _, _, .conditional isElif condition hline hthen helse => by
      rw [moduleStatement, moduleStatement]
      exact .ite (pair_moduleBody _ 0 hthen) (pair_moduleBody _ 0 helse)
  | path, _, _, .definition d hline => by
      rw [moduleStatement, moduleStatement]
      exact (pair_definition hline d).bindEq fun _ => .pure (.cons (.other rfl) .nil)
  | path, _, _, .classDef name args hline hbody => by
      rw [moduleStatement, moduleStatement]
      refine (pair_classOf hline name args (pair_classBody hline _ 0 _ hbody)).bindEq fun made => ?_
      exact .pure (.cons (.classDef made hline) .nil)
  | path, _, _, .assign target a hline => by
      rw [moduleStatement, moduleStatement]
      exact pair_moduleAssignment hline target (pair_declared hline a)
  | path, _, _, .constant target hline ha hb => by
      rw [moduleStatement, moduleStatement]
      exact pair_moduleAssignment hline target (pair_typed hline ha hb)
  | path, _, _, .typeVar name declaredName constraints keywords hline => by
      rw [moduleStatement, moduleStatement]
      exact (pair_typeVariable hline name declaredName constraints).bind fun _ _ hmade =>
        .pure (.cons hmade .nil)
  | path, _, _, .importModules modules hline => by
      rw [moduleStatement, moduleStatement]
      exact .ite (pair_fault_bind hline _) (.pure .nil)
  | path, _, _, .importFrom module names hline => by
      rw [moduleStatement, moduleStatement]
      exact pair_importedMembers module names
  | path, _, _, .importAll module hline => by
      rw [moduleStatement, moduleStatement]
      exact .pure .nil

theorem pair_moduleBody : ∀ (path : Path) (position : Nat) {body other : List Stmt},
    Stmt.AllAlike ρ body other → Pair ρ (ItemsAlike ρ)
      (moduleBody liveness path position body) (moduleBody liveness path position other)
  | _, _, _, _, .nil => .pure .nil
  | path, position, _, _, .cons hs hrest => by
      rw [moduleBody, moduleBody]
      refine (pair_moduleStatement (position :: path) hs).bind fun items others hitems => ?_
      refine (pair_moduleBody path (position + 1) hrest).bind fun more rest hmore => ?_
      exact .pure (List.rel_append hitems hmore)

end

theorem filterMap_itemsAlike {β : Type} {f : Item → Option β} {items others : List Item}
    (hf : ∀ n m c, f (.classDef n c) = f (.classDef m c)) (h : ItemsAlike ρ items others) :
    items.filterMap f = others.filterMap f := by
  induction h with
  | nil => rfl
  | @cons item other _ _ hfirst _ ih =>
      have hsame : f item = f other := by
        cases hfirst with
        | classDef c => exact hf _ _ c
        | other => rfl
      rw [List.filterMap_cons, List.filterMap_cons, hsame, ih]

-- The same module, with the classes of one side on lines that are related to those of the other.
structure Built.Alike (ρ : Int32 → Int32 → Prop) (b c : Built) : Prop where
  module : b.module = c.module
  classLines : List.Forall₂ (fun x y => x.1 = y.1 ∧ ρ x.2 y.2) b.classLines c.classLines

end Declare

end TypeStub
