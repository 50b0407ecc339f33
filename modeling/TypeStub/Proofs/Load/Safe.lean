import TypeStub.Proofs.Build.Internal
import TypeStub.Proofs.Grammar.Chain
import TypeStub.Proofs.Live.Declare
import TypeStub.Proofs.Live.Ordinary
import TypeStub.Proofs.Live.Statements
import TypeStub.Proofs.Load.Outcome
import TypeStub.Proofs.Target.Slice

-- What the first pass decides is all that building asks for.
namespace TypeStub.Live

-- The first pass stops at a condition that fails for a reason of its own.
theorem ordinary_tree {useBuiltins : Bool} {target : Target} {body : List Stmt} {fault : Fault}
    (hc : ∀ inner ∈ Stmt.nestedAll body, ∃ budget scope, inner.Within budget scope)
    (h : Prescan.tree useBuiltins target body = .error fault) : fault.IsOrdinary := by
  obtain ⟨before, b, after, e, hsplit, -, he, rfl⟩ := tree_error h
  have hb : b ∈ reached target [] 0 body := by simp [hsplit]
  obtain ⟨place, isElif, thenBody, elseBody, -, hm⟩ := liveCode_of_mem_reached hb
  obtain ⟨budget, scope, hw⟩ := hc _ (nested_of_mem_liveCode hm)
  exact Condition.evaluate_error target _ e hw.isCondition he

mutual

-- The conditionals that building visits: in each of them it goes on with the branch that was
-- decided on.
def visitedStmt (liveness : Liveness) (path : Path) : Stmt → List Path
  | .conditional _ _ _ thenBody elseBody =>
      path ::
        if liveness.selects path then visited liveness path.thenBody 0 thenBody
        else visited liveness path.elseBody 0 elseBody
  | .classDef _ _ _ body => visited liveness path.classBody 0 body
  | _ => []

def visited (liveness : Liveness) (path : Path) (position : Nat) : List Stmt → List Path
  | [] => []
  | statement :: rest =>
      visitedStmt liveness (position :: path) statement ++
        visited liveness path (position + 1) rest

end

mutual

theorem visitedStmt_eq {target : Target} {liveness : Liveness} : ∀ {path : Path}
    {statement : Stmt}, Follows target liveness (reachedStmt target path statement) →
      visitedStmt liveness path statement = (reachedStmt target path statement).map Branching.path
  | path, .conditional _ _ condition thenBody elseBody, h => by
      obtain ⟨hlive, hthen, helse⟩ := h.branch
      rw [visitedStmt, reachedStmt, hlive, List.map_cons]
      cases hs : selects target condition with
      | true => exact congrArg _ (visited_eq (hthen hs))
      | false => exact congrArg _ (visited_eq (helse hs))
  | path, .classDef _ _ _ body, h => visited_eq h
  | _, .definition _ _, _ | _, .assign _ _ _, _ | _, .typeVar _ _ _ _ _, _
  | _, .importModules _ _, _ | _, .importFrom _ _ _, _ | _, .importAll _ _, _ => rfl

-- Where the decisions are those of the conditions, both passes come to the same conditionals.
theorem visited_eq {target : Target} {liveness : Liveness} : ∀ {path : Path} {position : Nat}
    {body : List Stmt}, Follows target liveness (reached target path position body) →
      visited liveness path position body =
        (reached target path position body).map Branching.path
  | _, _, [], _ => rfl
  | path, position, statement :: rest, h => by
      rw [reached] at h
      rw [visited, reached, List.map_append, visitedStmt_eq h.append.1, visited_eq h.append.2]

end

section

variable {useBuiltins : Bool} {target : Target} {body : List Stmt} {scan : Prescan}

-- Every conditional that building visits was decided on.
theorem lookup_of_mem_visited (h : Prescan.tree useBuiltins target body = .ok scan) :
    ∀ path ∈ visited scan.liveness [] 0 body, ∃ live, scan.liveness.lookup path = some live := by
  obtain rfl := tree_ok h
  intro path hp
  rw [visited_eq (follows_decisions target [] 0 body)] at hp
  obtain ⟨b, hb, rfl⟩ := List.mem_map.mp hp
  exact ⟨_, lookup_decisions (nodup_reached target [] 0 body) hb⟩

-- Whatever counts for the others, the same is built.
theorem moduleOf_of_lookup (h : Prescan.tree useBuiltins target body = .ok scan)
    {liveness : Liveness} (name : Text)
    (ha : ∀ path live, scan.liveness.lookup path = some live → liveness.lookup path = some live) :
    Declare.moduleOf name liveness body = Declare.moduleOf name scan.liveness body := by
  obtain rfl := tree_ok h
  have hfollows : Follows target liveness (reached target [] 0 body) := by
    intro b hb
    rw [Liveness.selects, ha _ _ (lookup_decisions (nodup_reached target [] 0 body) hb)]
    rfl
  rw [moduleOf_flatten name hfollows, moduleOf_flatten name (follows_decisions target [] 0 body)]

end

end TypeStub.Live

namespace TypeStub

-- A setter that fits its property has a parameter for the object and one for the value.
theorem Merge.params_of_fitsProperty {d : Definition} {signature : Signature} {target : Text}
    (hr : d.decorator.role = .setter target) (hf : fitsProperty d signature = true) :
    ∃ self value rest, signature.params = self :: value :: rest := by
  simp only [fitsProperty, hr, Bool.and_eq_true, beq_iff_eq] at hf
  have hlength : 2 ≤ signature.params.length := hf.2 ▸ List.length_filter_le ..
  match hp : signature.params with
  | [] => simp [hp] at hlength
  | [_] => simp [hp] at hlength
  | self :: value :: rest => exact ⟨self, value, rest, rfl⟩

namespace Unique

theorem ordinary_fault? {lines : List (Text × Int32)} {module : StubModule} {fault : Fault}
    (h : fault? lines module = some fault) : fault.IsOrdinary := by
  unfold fault? at h
  split at h
  · obtain ⟨c, -, hc⟩ := List.exists_of_findSome?_eq_some h
    unfold classFault? at hc
    split at hc
    · simp at hc
    · exact Option.some.inj hc ▸ id
  · exact Option.some.inj h ▸ id

end Unique

namespace Load

variable {source : Text} {body : List Stmt} {fault : Fault}

theorem ordinary_build {name : Text} {target : Target} (hp : parseSource source = .ok body)
    (h : build name target body = .error fault) : fault.IsOrdinary := by
  obtain hscan | ⟨-, last, hm⟩ := build_error h
  · exact Live.ordinary_tree (parseSource_nested hp) hscan
  have hs := Live.allScoped_flatten target (parseSource_scoped hp)
  rcases Live.moduleOf_error (Live.reached_flatten target target [] 0 body) hs hm with
    hblames | ⟨defs, classes, last, -, hf⟩
  · exact hblames.ordinary (Live.areWritten_flatten target (parseSource_areWritten hp))
  · exact (Merge.faultAt_moduleFunctions hf).cause.ordinary

theorem ordinary_validate {built : Declare.Built} (h : validate built = .error fault) :
    fault.IsOrdinary := by
  unfold validate at h
  split at h
  · rename_i found hf
    obtain rfl : found = fault := Except.error.inj h
    exact Unique.ordinary_fault? hf
  · simp at h

-- A source that parses and is rejected all the same is told what is wrong with it, if it has a name.
theorem ordinary_load {digest : Hasher} {request : Request} {name : Text} {d : Diagnostic}
    (hname : moduleName digest request source = .ok name) (hp : parseSource source = .ok body)
    (h : load digest request source = .error d) :
    ∃ fault : Fault, fault.IsOrdinary ∧ d.message = fault.cause.message := by
  obtain ⟨fault, rfl, hb | ⟨built, -, hv⟩⟩ := load_error hname hp h
  · exact ⟨fault, ordinary_build hp hb, rfl⟩
  · exact ⟨fault, ordinary_validate hv, rfl⟩

theorem not_internal_digestError (e : DigestError) : ¬ InternalMessage e.message := by
  intro h
  rcases h.opens with hopens | hopens <;> cases e <;> revert hopens <;> decide

theorem not_internal_load {digest : Hasher} {request : Request} {d : Diagnostic}
    (hp : parseSource source = .ok body) (h : load digest request source = .error d) :
    ¬ InternalMessage d.message := by
  cases hname : moduleName digest request source with
  | error e =>
      obtain rfl := Except.error.inj ((moduleName_error hname).2.2.symm.trans h)
      exact not_internal_digestError e
  | ok name =>
      obtain ⟨fault, hordinary, hmessage⟩ := ordinary_load hname hp h
      exact fun hm => hordinary (fault.cause.internalMessage_iff.mp (hmessage ▸ hm))

end Load

-- The two sides of an assignment, when it has them.
def Assigned.annotation? : Assigned → Option Expr
  | .declared hint _ => some hint
  | .value _ _ => none

def Assigned.value? : Assigned → Option Expr
  | .declared _ placeholder => if placeholder then some .ellipsis else none
  | .value given _ => some given

theorem Stmt.Within.value {budget : Nat} {scope : Grammar.Scope} {place : Place} {target : Text}
    {assigned : Assigned} (h : Within budget scope (.assign place target assigned))
    (ha : assigned.annotation? = none) : ∃ value ∈ assigned.value?, value.IsValue := by
  have hw := h.isWritten.2
  cases assigned with
  | declared hint placeholder => simp [Assigned.annotation?] at ha
  | value given comment => exact ⟨given, rfl, hw.1⟩

-- What the stages after the grammar take for granted about a source and its tree. Of a slice of the
-- version that is so only where no index that it selects is too large for the step.
structure Safe (source : Text) (body : List Stmt) : Prop where
  messages : ∀ digest request d, load digest request source = .error d →
    ¬ InternalMessage d.message
  decided : ∀ useBuiltins target scan, Prescan.tree useBuiltins target body = .ok scan →
    ∀ path ∈ Live.visited scan.liveness [] 0 body,
      ∃ live, scan.liveness.lookup path = some live
  unread : ∀ useBuiltins target scan, Prescan.tree useBuiltins target body = .ok scan →
    ∀ liveness : Liveness,
      (∀ path live, scan.liveness.lookup path = some live → liveness.lookup path = some live) →
      ∀ name, Declare.moduleOf name liveness body = Declare.moduleOf name scan.liveness body
  subscripts : ∀ statement ∈ Stmt.nestedAll body, ∀ e ∈ statement.exprs, e.WellIndexed
  values : ∀ place target assigned, Stmt.assign place target assigned ∈ Stmt.nestedAll body →
    assigned.annotation? = none → ∃ value ∈ assigned.value?, value.IsValue
  setters : ∀ (d : Definition) signature target, d.decorator.role = .setter target →
    Merge.fitsProperty d signature = true →
    ∃ self value rest, signature.params = self :: value :: rest
  slices : ∀ (target : Target) (start stop step : Option Int),
    (padVersion target.version).length < 2 ^ 60 → (∀ b ∈ step, IsWord b) → step ≠ some 0 →
    ((∀ index ∈ sliceIndices (padVersion target.version).length start stop (step.getD 1),
        0 ≤ index ∧ index < (padVersion target.version).length) ↔
      Fits (padVersion target.version).length start stop (step.getD 1))

-- No source that parses leads a later stage to a case that it does not expect.
theorem parseSource_safe {source : Text} {body : List Stmt}
    (h : parseSource source = .ok body) : Safe source body where
  messages := fun _ _ _ => Load.not_internal_load h
  decided := fun _ _ _ hscan => Live.lookup_of_mem_visited hscan
  unread := fun _ _ _ hscan _ ha name => Live.moduleOf_of_lookup hscan name ha
  subscripts := by
    intro statement hs
    obtain ⟨budget, scope, hw⟩ := parseSource_nested h statement hs
    exact hw.wellIndexed
  values := by
    intro place target assigned hs
    obtain ⟨budget, scope, hw⟩ := parseSource_nested h _ hs
    exact hw.value
  setters := fun _ _ _ => Merge.params_of_fitsProperty
  slices := by
    intro target start stop step hsize hword hzero
    cases step with
    | none => exact inside_iff_fits (by decide) (by decide) hsize
    | some step =>
        refine inside_iff_fits (fun h => hzero ?_) (hword step rfl) hsize
        exact congrArg some h

theorem parseSource_safe_chain :
    ∃ body, parseSource (Chain.source 1) = .ok body ∧ Safe (Chain.source 1) body := by
  obtain ⟨statement, h, -⟩ := Chain.parseSource_chain 1
  exact ⟨[statement], h, parseSource_safe h⟩

end TypeStub
