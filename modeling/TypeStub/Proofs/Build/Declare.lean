import TypeStub.Declare
import TypeStub.Proofs.Build.Merge

namespace TypeStub

def Constant.Shaped (P : Ty → Prop) (c : Constant) : Prop := Identifier c.name ∧ P c.type

-- A class statement's class: every name is an identifier, every type keeps the property, and none
-- of the parents is nothing.
structure StubClass.Shaped (P : Ty → Prop) (c : StubClass) : Prop where
  name : Identifier c.name
  parents : ∀ type ∈ c.parents, P type ∧ type ≠ .nothing
  metaclass : ∀ type ∈ c.metaclass, P type
  constants : ∀ constant ∈ c.constants, constant.Shaped P
  methods : ∀ f ∈ c.methods, f.Shaped ∧ ∀ type ∈ f.types, P type

theorem StubClass.Shaped.types {P : Ty → Prop} {c : StubClass} (h : c.Shaped P) :
    ∀ type ∈ c.types, P type := by
  intro type ht
  simp only [StubClass.types, List.mem_append, Option.mem_toList, List.mem_map,
    List.mem_flatMap] at ht
  rcases ht with ((ht | ht) | ⟨constant, hm, rfl⟩) | ⟨f, hm, ht⟩
  · exact (h.parents type ht).1
  · exact h.metaclass type ht
  · exact (h.constants constant hm).2
  · exact (h.methods f hm).2 type ht

-- A module whose statements are named by identifiers and whose types keep the property. The record
-- classes that come last are named otherwise.
structure StubModule.Shaped (P : Ty → Prop) (m : StubModule) : Prop where
  aliases : ∀ a ∈ m.aliases, Identifier a.name ∧ P a.target
  constants : ∀ c ∈ m.constants, c.Shaped P
  typeVariables : ∀ v ∈ m.typeVariables, Identifier v.name ∧ ∀ type ∈ v.constraints, P type
  classes : ∃ (declared : List StubClass) (records : Records),
    m.classes = declared ++ records.classes ∧ (∀ c ∈ declared, c.Shaped P) ∧
      Convert.Holds P records
  functions : ∀ f ∈ m.functions, f.Shaped ∧ ∀ type ∈ f.types, P type

theorem StubModule.Shaped.types {P : Ty → Prop} {m : StubModule} (h : m.Shaped P) :
    ∀ type ∈ m.types, P type := by
  obtain ⟨declared, records, hsplit, hdeclared, hrecords⟩ := h.classes
  intro type ht
  simp only [StubModule.types, List.mem_append, List.mem_map, List.mem_flatMap] at ht
  rcases ht with (((⟨a, hm, rfl⟩ | ⟨c, hm, rfl⟩) | ⟨v, hm, ht⟩) | ⟨c, hm, ht⟩) | ⟨f, hm, ht⟩
  · exact (h.aliases a hm).2
  · exact (h.constants c hm).2
  · exact (h.typeVariables v hm).2 type ht
  · rcases List.mem_append.mp (hsplit ▸ hm) with hm | hm
    · exact (hdeclared c hm).types type ht
    · exact (hrecords c hm).2 type ht
  · exact (h.functions f hm).2 type ht

namespace Declare

open Build

def Item.Shaped (P : Ty → Prop) : Item → Prop
  | .synonym a => Identifier a.name ∧ P a.target
  | .constant c => c.Shaped P
  | .typeVariable v => Identifier v.name ∧ ∀ type ∈ v.constraints, P type
  | .classDef _ c => c.Shaped P
  | .definition d => d.Shaped P

section

variable {N : Names → Prop} {P : Ty → Prop}

def Declared.Kept (P : Ty → Prop) : Declared → Prop
  | .constant type => P type
  | .synonym value => value.IsType

theorem ensures_constantOf (hk : Kept N P) (line : Int32) {comment : Option Expr} {type : Ty}
    (hc : ∀ e ∈ comment, e.IsType) (ht : P type) :
    Ensures (Admissible N P) (constantOf line comment type) (Declared.Kept P) := by
  cases comment with
  | none => exact .pure ht
  | some e => exact .bind (ensures_typeAt hk line (hc e rfl)) fun type ht => .pure ht

theorem ensures_declared (hk : Kept N P) (line : Int32) {assigned : Assigned}
    (ha : assigned.IsWritten) :
    Ensures (Admissible N P) (declared line assigned) (Declared.Kept P) := by
  cases assigned with
  | declared hint placeholder =>
      exact .bind (ensures_typeAt hk line ha) fun type ht => .pure ht
  | value given comment =>
      obtain ⟨hv, hc⟩ := ha
      cases given with
      | ellipsis => exact ensures_constantOf hk line hc hk.anything
      | int n =>
          refine .ite (fun _ => ?_) fun _ => ensures_fault _ _
          exact ensures_constantOf hk line hc (hk.plain _ (by simp))
      | float x => exact ensures_fault _ _
      | bool b => exact ensures_constantOf hk line hc (hk.plain _ (by simp))
      | _ => exact .pure hv

-- The constants and definitions of a class body so far.
structure ClassScan.Shaped (P : Ty → Prop) (scan : ClassScan) : Prop where
  constants : ∀ c ∈ scan.constants, c.Shaped P
  definitions : ∀ d ∈ scan.definitions, d.Shaped P

theorem ClassScan.Shaped.addConstant {scan : ClassScan} (h : scan.Shaped P) {c : Constant}
    (hc : c.Shaped P) : ClassScan.Shaped P { scan with constants := scan.constants ++ [c] } :=
  ⟨by simpa [or_imp, forall_and] using ⟨h.constants, hc⟩, h.definitions⟩

theorem copiedType_mem {constants : List Constant} {value : Expr} {type : Ty}
    (h : copiedType? constants value = some type) : ∃ c ∈ constants, c.type = type := by
  unfold copiedType? at h
  split at h
  · obtain ⟨c, hc, rfl⟩ := Option.map_eq_some_iff.mp h
    exact ⟨c, (List.mem_filter.mp (List.mem_of_getLast? hc)).1, rfl⟩
  · simp at h

theorem ensures_classStatement (hk : Kept N P) (classLine : Int32) {scan : ClassScan}
    (hs : scan.Shaped P) {statement : Stmt} (hw : statement.IsWritten) :
    Ensures (Admissible N P) (classStatement classLine scan statement) (ClassScan.Shaped P) := by
  unfold classStatement
  split
  · refine .bind (ensures_definition hk _ hw) fun d hd => .pure ⟨hs.constants, ?_⟩
    simpa [or_imp, forall_and] using ⟨hs.definitions, hd⟩
  · obtain ⟨hn, ha⟩ := hw
    refine .bind (ensures_declared hk _ ha) fun declared hd => ?_
    cases declared with
    | constant type => exact .pure (hs.addConstant ⟨hn, hd⟩)
    | synonym value =>
        dsimp only
        split
        · rename_i type hc
          obtain ⟨c, hm, rfl⟩ := copiedType_mem hc
          exact .pure (hs.addConstant ⟨hn, (hs.constants c hm).2⟩)
        · exact ensures_fault _ _
  · exact ensures_fault _ _

mutual

theorem ensures_classMember (hk : Kept N P) (liveness : Liveness) (classLine : Int32) :
    ∀ (path : Path) {scan : ClassScan} {statement : Stmt}, scan.Shaped P → statement.IsWritten →
      Ensures (Admissible N P) (classMember liveness classLine path scan statement)
        (ClassScan.Shaped P)
  | path, scan, .conditional _ _ _ thenBody elseBody, hs, hw => by
      rw [classMember]
      refine .ite (fun _ => ?_) fun _ => ?_
      · exact ensures_classBody hk liveness classLine _ _ hs hw.1
      · exact ensures_classBody hk liveness classLine _ _ hs hw.2
  | path, scan, .definition _ _, hs, hw | path, scan, .classDef _ _ _ _, hs, hw
  | path, scan, .assign _ _ _, hs, hw | path, scan, .typeVar _ _ _ _ _, hs, hw
  | path, scan, .importModules _ _, hs, hw | path, scan, .importFrom _ _ _, hs, hw
  | path, scan, .importAll _ _, hs, hw => ensures_classStatement hk classLine hs hw

theorem ensures_classBody (hk : Kept N P) (liveness : Liveness) (classLine : Int32) :
    ∀ (path : Path) (position : Nat) {scan : ClassScan} {body : List Stmt}, scan.Shaped P →
      Stmt.AreWritten body →
      Ensures (Admissible N P) (classBody liveness classLine path position scan body)
        (ClassScan.Shaped P)
  | path, position, scan, [], hs, _ => .pure hs
  | path, position, scan, statement :: rest, hs, hw => by
      rw [classBody]
      exact .bind (ensures_classMember hk liveness classLine _ hs hw.1) fun scan hs =>
        ensures_classBody hk liveness classLine path (position + 1) hs hw.2

end

def Heritage.Kept (P : Ty → Prop) (heritage : Heritage) : Prop :=
  (∀ type ∈ heritage.parents, P type ∧ type ≠ .nothing) ∧ ∀ type ∈ heritage.metaclass, P type

theorem ensures_classArgument (hk : Kept N P) (line : Int32) {heritage : Heritage}
    (hh : heritage.Kept P) {arg : ClassArg} (ha : arg.value.IsType) :
    Ensures (Admissible N P) (classArgument line heritage arg) (Heritage.Kept P) := by
  refine .ite (fun _ => ensures_fault_bind _ _) fun _ => ?_
  refine .ite (fun _ => ensures_fault_bind _ _) fun _ => ?_
  refine .bind (ensures_typeAt hk line ha) fun type ht => ?_
  refine .ite (fun _ => .pure ⟨hh.1, by simpa using ht⟩) fun _ => ?_
  refine .ite (fun _ => .pure hh) fun hkind => .pure ⟨?_, hh.2⟩
  have hne : type ≠ .nothing := by
    rintro rfl
    exact hkind rfl
  rw [List.forall_mem_append, List.forall_mem_singleton]
  exact ⟨hh.1, ht, hne⟩

theorem ensures_merged {α : Type} {inv : BuildState → Prop} {Q : α → Prop} {outcome : Except Fault α}
    (h : ∀ a, outcome = .ok a → Q a) : Ensures inv (merged outcome) Q := by
  cases outcome with
  | ok a => exact .pure (h a rfl)
  | error e => exact .throw

theorem ensures_classOf (hk : Kept N P) (line : Int32) {name : Text} {args : List ClassArg}
    {contents : Build ClassScan} (hn : Identifier name) (ha : ∀ arg ∈ args, arg.value.IsType)
    (hc : Ensures (Admissible N P) contents (ClassScan.Shaped P)) :
    Ensures (Admissible N P) (classOf line name args contents) (StubClass.Shaped P) := by
  refine .bind (.foldlM (R := Heritage.Kept P) ⟨by simp, by simp⟩ fun heritage hh arg hm =>
    ensures_classArgument hk line hh (ha arg hm)) fun heritage hh => .bind hc fun scan hs => ?_
  refine .bind (ensures_merged fun members hm =>
    Merge.shaped_classMembers hs.definitions hk.anything hm) fun members hm => .pure ?_
  refine ⟨hn, hh.1, hh.2, fun c hin => ?_, fun f hin => ?_⟩
  · rcases List.mem_append.mp hin with hin | hin
    · exact hs.constants c hin
    · obtain ⟨member, hin, hp⟩ := List.mem_filterMap.mp hin
      cases member <;> simp only [Merge.Member.property?, Option.some.injEq, reduceCtorEq] at hp
      exact hp ▸ hm _ hin
  · obtain ⟨member, hin, hp⟩ := List.mem_filterMap.mp hin
    cases member <;> simp only [Merge.Member.method?, Option.some.injEq, reduceCtorEq] at hp
    exact hp ▸ hm _ hin

theorem ensures_moduleAssignment (hk : Kept N P) (line : Int32) {target : Text} {assigned : Assigned}
    (hn : Identifier target) (ha : assigned.IsWritten) :
    Ensures (Admissible N P) (moduleAssignment line target assigned) (Item.Shaped P) := by
  refine .bind (ensures_declared hk line ha) fun declared hd => ?_
  cases declared with
  | constant type => exact .pure ⟨hn, hd⟩
  | synonym value => exact .bind (ensures_typeAt hk line hd) fun type ht => .pure ⟨hn, ht⟩

theorem ensures_importedMember (hk : Kept N P) {module : Text} (hm : SourceModule module)
    {imported : ImportedName} (hi : imported.IsWritten Identifier) :
    Ensures (Admissible N P) (importedMember module imported) fun item =>
      ∀ i ∈ item, i.Shaped P := by
  have hname : Identifier (imported.asName.getD imported.name) := by
    cases ha : imported.asName with
    | none => simpa [ha] using hi.1
    | some name => simpa [ha] using hi.2 name ha
  have hadd : Ensures (Admissible N P)
      (addImport (imported.asName.getD imported.name) (module ++ '.' :: imported.name))
      fun _ => True := by
    intro state _ state' hs h
    obtain ⟨-, rfl⟩ := (EStateM.Result.ok.injEq ..).mp h
    exact ⟨trivial, hk.imported _ _ _ _ hm hi.1 hs.1, hs.2⟩
  refine .bind hadd fun _ _ => .ite (fun _ => .pure (by simp)) fun hne => .pure ?_
  simpa [Item.Shaped] using ⟨hname, hk.member _ _ hm hi.1 hne⟩

theorem ensures_typeVariable (hk : Kept N P) (line : Int32) {name declaredName : Text}
    {constraints : List Expr} (hn : Identifier name) (hc : ∀ e ∈ constraints, e.IsType) :
    Ensures (Admissible N P) (typeVariable line name declaredName constraints) (Item.Shaped P) := by
  refine .ite (fun _ => ensures_fault_bind _ _) fun _ => ?_
  exact .bind (.mapM fun e hm => ensures_typeAt hk line (hc e hm)) fun types ht => .pure ⟨hn, ht⟩

mutual

theorem ensures_moduleStatement (hk : Kept N P) (liveness : Liveness) :
    ∀ (path : Path) {statement : Stmt}, statement.IsWritten →
      Ensures (Admissible N P) (moduleStatement liveness path statement) fun items =>
        ∀ item ∈ items, item.Shaped P
  | path, .conditional _ _ _ _ _, hw => by
      rw [moduleStatement]
      refine .ite (fun _ => ?_) fun _ => ?_
      · exact ensures_moduleBody hk liveness _ _ hw.1
      · exact ensures_moduleBody hk liveness _ _ hw.2
  | path, .definition _ _, hw => by
      rw [moduleStatement]
      exact .bind (ensures_definition hk _ hw) fun d hd => .pure (by simpa [Item.Shaped] using hd)
  | path, .classDef place _ _ _, hw => by
      rw [moduleStatement]
      have hempty : ClassScan.Shaped P ⟨[], []⟩ := ⟨by simp, by simp⟩
      have hbody := ensures_classBody hk liveness place.line path.classBody 0 hempty hw.2.2
      exact .bind (ensures_classOf hk _ hw.1 hw.2.1 hbody) fun c hc =>
        .pure (by simpa [Item.Shaped] using hc)
  | path, .assign _ _ _, hw => by
      rw [moduleStatement]
      exact .bind (ensures_moduleAssignment hk _ hw.1 hw.2) fun i hi => .pure (by simpa using hi)
  | path, .typeVar _ _ _ _ _, hw => by
      rw [moduleStatement]
      exact .bind (ensures_typeVariable hk _ hw.1 hw.2) fun i hi => .pure (by simpa using hi)
  | path, .importModules _ _, hw => by
      rw [moduleStatement]
      exact .ite (fun _ => ensures_fault_bind _ _) fun _ => .pure (by simp)
  | path, .importFrom _ _ _, hw => by
      rw [moduleStatement]
      refine .bind (.mapM fun n hm => ensures_importedMember hk hw.1 (hw.2 n hm)) fun items hi => ?_
      refine .pure fun item hm => ?_
      obtain ⟨found, hin, rfl⟩ := List.mem_filterMap.mp hm
      exact hi _ hin item rfl
  | path, .importAll _ _, hw => by
      rw [moduleStatement]
      exact .pure (by simp)

theorem ensures_moduleBody (hk : Kept N P) (liveness : Liveness) :
    ∀ (path : Path) (position : Nat) {body : List Stmt}, Stmt.AreWritten body →
      Ensures (Admissible N P) (moduleBody liveness path position body) fun items =>
        ∀ item ∈ items, item.Shaped P
  | path, position, [], _ => .pure (by simp)
  | path, position, statement :: rest, hw => by
      rw [moduleBody]
      refine .bind (ensures_moduleStatement hk liveness _ hw.1) fun items hi => ?_
      refine .bind (ensures_moduleBody hk liveness path (position + 1) hw.2) fun more hm => ?_
      exact .pure (by simpa [or_imp, forall_and] using ⟨hi, hm⟩)

end

theorem merged_ok {α : Type} {outcome : Except Fault α} {state state' : BuildState} {a : α}
    (h : merged outcome state = .ok a state') : outcome = .ok a ∧ state' = state := by
  cases outcome with
  | ok b =>
      obtain ⟨rfl, rfl⟩ := (EStateM.Result.ok.injEq ..).mp h
      exact ⟨rfl, rfl⟩
  | error e => exact absurd h (show EStateM.Result.error e state ≠ .ok a state' by simp)

-- The contents of a module from the items of its statements.
theorem moduleOf_ok {name : Text} {liveness : Liveness} {body : List Stmt}
    {state state' : BuildState} {built : Built}
    (h : moduleOf name liveness body state = .ok built state') :
    ∃ (items : List Item) (functions : List StubFunction),
      moduleBody liveness [] 0 body state = .ok items state' ∧
      Merge.moduleFunctions (items.filterMap Item.definition?) = .ok functions ∧
      built.module =
        { name := name
          aliases := items.filterMap Item.synonym?
          constants := items.filterMap Item.constant?
          typeVariables := items.filterMap Item.typeVariable?
          classes := items.filterMap Item.class? ++ state'.records.classes
          functions := functions } ∧
      built.classLines = items.filterMap Item.classLine? := by
  obtain ⟨items, after, hitems, hrest⟩ := run_bind_ok h
  obtain ⟨functions, unchanged, hmerged, hlast⟩ := run_bind_ok hrest
  obtain ⟨hfun, rfl⟩ := merged_ok hmerged
  obtain ⟨rfl, rfl⟩ := (EStateM.Result.ok.injEq ..).mp hlast
  exact ⟨items, functions, hitems, hfun, rfl, rfl⟩

theorem shaped_moduleOf (hk : Kept N P) {name : Text} {liveness : Liveness} {body : List Stmt}
    (hw : Stmt.AreWritten body) {state : BuildState} (hs : Admissible N P state)
    {built : Built} {state' : BuildState}
    (h : moduleOf name liveness body state = .ok built state') : built.module.Shaped P := by
  obtain ⟨items, functions, hitems, hf, hm, -⟩ := moduleOf_ok h
  obtain ⟨hin, ha⟩ := ensures_moduleBody hk liveness _ _ hw hs hitems
  have hkind : ∀ {α : Type} {pick : Item → Option α} {Q : α → Prop},
      (∀ item a, item.Shaped P → pick item = some a → Q a) →
      ∀ a ∈ items.filterMap pick, Q a := by
    intro α pick Q hQ a hm
    obtain ⟨item, hm, hp⟩ := List.mem_filterMap.mp hm
    exact hQ item a (hin item hm) hp
  rw [hm]
  refine ⟨hkind ?_, hkind ?_, hkind ?_, ⟨_, state'.records, rfl, hkind ?_, ha.2⟩, ?_⟩
  · rintro (_ | _ | _ | _ | _) a hs hp <;>
      simp only [Item.synonym?, Option.some.injEq, reduceCtorEq] at hp
    exact hp ▸ hs
  · rintro (_ | _ | _ | _ | _) a hs hp <;>
      simp only [Item.constant?, Option.some.injEq, reduceCtorEq] at hp
    exact hp ▸ hs
  · rintro (_ | _ | _ | _ | _) a hs hp <;>
      simp only [Item.typeVariable?, Option.some.injEq, reduceCtorEq] at hp
    exact hp ▸ hs
  · rintro (_ | _ | _ | _ | _) a hs hp <;>
      simp only [Item.class?, Option.some.injEq, reduceCtorEq] at hp
    exact hp ▸ hs
  · refine Merge.shaped_moduleFunctions (hkind ?_) hf
    rintro (_ | _ | _ | _ | _) a hs hp <;>
      simp only [Item.definition?, Option.some.injEq, reduceCtorEq] at hp
    exact hp ▸ hs

end

end Declare

end TypeStub
