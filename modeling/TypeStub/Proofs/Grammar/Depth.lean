import TypeStub.Proofs.Grammar.Parsed

namespace TypeStub

namespace Expr

mutual

-- The levels of an expression, one for each expression inside another.
def depth : Expr → Nat
  | .tuple elements | .list elements | .or elements => depthAll elements + 1
  | .subscript value elements => max value.depth (depthAll elements) + 1
  | .slice start stop step => max (depthMaybe start) (max (depthMaybe stop) (depthMaybe step)) + 1
  | .compare left _ right => max left.depth right.depth + 1
  | .record _ fields => depthFields fields + 1
  | _ => 1

def depthAll : List Expr → Nat
  | [] => 0
  | e :: rest => max e.depth (depthAll rest)

def depthMaybe : Option Expr → Nat
  | none => 0
  | some e => e.depth

def depthFields : List (Text × Expr) → Nat
  | [] => 0
  | (_, type) :: rest => max type.depth (depthFields rest)

end

theorem depthAll_le {elements : List Expr} {bound : Nat} (h : ∀ e ∈ elements, e.depth ≤ bound) :
    depthAll elements ≤ bound := by
  induction elements with
  | nil => exact Nat.zero_le _
  | cons e rest ih =>
      obtain ⟨he, hrest⟩ := List.forall_mem_cons.mp h
      exact Nat.max_le.mpr ⟨he, ih hrest⟩

theorem depthMaybe_le {part : Option Expr} {bound : Nat} (h : ∀ e ∈ part, e.depth ≤ bound) :
    depthMaybe part ≤ bound := by
  cases part with
  | none => exact Nat.zero_le _
  | some e => exact h e rfl

theorem depthFields_le {fields : List (Text × Expr)} {bound : Nat}
    (h : ∀ field ∈ fields, field.2.depth ≤ bound) : depthFields fields ≤ bound := by
  induction fields with
  | nil => exact Nat.zero_le _
  | cons field rest ih =>
      obtain ⟨hf, hrest⟩ := List.forall_mem_cons.mp h
      exact Nat.max_le.mpr ⟨hf, ih hrest⟩

theorem Alternatives.depth_le {A : Expr → Prop} {e : Expr} {bound : Nat}
    (ha : ∀ e, A e → e.depth ≤ bound) (h : Alternatives A e) : e.depth ≤ bound + 1 := by
  cases h with
  | single h => exact Nat.le_succ_of_le (ha e h)
  | or hl h => exact Nat.succ_le_succ (depthAll_le fun e he => ha e (h e he))

theorem TypeNode.depth_le {T : Expr → Prop} {e : Expr} {bound : Nat}
    (ht : ∀ e, T e → e.depth ≤ bound) (hb : 1 ≤ bound) (h : TypeNode T e) :
    e.depth ≤ bound + 1 := by
  cases h with
  | inner h => exact Nat.le_succ_of_le (ht e h)
  | name h => exact Nat.le_add_left ..
  | question => exact Nat.le_add_left ..
  | ellipsis => exact Nat.le_add_left ..
  | list h => exact Nat.succ_le_succ (depthAll_le fun e he => ht e (h e he))
  | subscript hn hne h =>
      exact Nat.succ_le_succ (Nat.max_le.mpr ⟨hb, depthAll_le fun e he => ht e (h e he)⟩)
  | record h =>
      exact Nat.succ_le_succ (depthFields_le fun field hf => ht field.2 (h field hf))

theorem TypeWithin.depth_le {budget : Nat} {e : Expr} (h : TypeWithin budget e) :
    e.depth ≤ 2 * budget + 1 := by
  induction budget generalizing e with
  | zero => exact absurd h id
  | succ budget ih =>
      have hnode : ∀ e, TypeNode (TypeWithin budget) e → e.depth ≤ 2 * budget + 2 :=
        fun e he => he.depth_le (fun _ => ih) (by omega)
      exact Alternatives.depth_le hnode h

theorem IsNumber.depth_le {e : Expr} (h : IsNumber e) : e.depth ≤ 1 := by
  cases h <;> exact Nat.le_refl 1

theorem IsDefault.depth_le {e : Expr} (h : e.IsDefault) : e.depth ≤ 1 := by
  cases e <;> first | exact Nat.le_refl 1 | exact absurd h id

theorem IsPlain.isDefault {e : Expr} (h : e.IsPlain) : e.IsDefault := by
  cases e <;> trivial

theorem IsIndex.depth_le {e : Expr} (h : IsIndex e) : e.depth ≤ 2 := by
  cases h with
  | number h => exact Nat.le_succ_of_le h.depth_le
  | slice ha ho he =>
      have hpart : ∀ {part : Option Expr}, (∀ e ∈ part, IsNumber e) → depthMaybe part ≤ 1 :=
        fun h => depthMaybe_le fun e he => (h e he).depth_le
      exact Nat.succ_le_succ (Nat.max_le.mpr ⟨hpart ha, Nat.max_le.mpr ⟨hpart ho, hpart he⟩⟩)

theorem IsSubject.depth_le {e : Expr} (h : IsSubject e) : e.depth ≤ 3 := by
  cases h with
  | name h => exact Nat.le_add_left ..
  | indexed hn hi =>
      have hindex : depthAll _ ≤ 2 := depthAll_le (List.forall_mem_singleton.mpr hi.depth_le)
      exact Nat.succ_le_succ (Nat.max_le.mpr ⟨Nat.le_succ 1, hindex⟩)

theorem ValueWithin.depth_le {budget : Nat} {e : Expr} (h : ValueWithin budget e) :
    e.depth ≤ budget + 1 := by
  induction budget generalizing e with
  | zero => exact absurd h id
  | succ budget ih =>
      cases h with
      | number h => exact Nat.le_trans h.depth_le (Nat.le_add_left ..)
      | string text => exact Nat.le_add_left ..
      | tuple h => exact Nat.succ_le_succ (depthAll_le fun e he => ih (h e he))

theorem ConditionWithin.depth_le {budget : Nat} {e : Expr} (h : ConditionWithin budget e) :
    e.depth ≤ 2 * budget + 4 := by
  induction budget generalizing e with
  | zero => exact absurd h id
  | succ budget ih =>
      have hterm : ∀ e, TermNode (ConditionWithin budget) (ValueWithin budget) e →
          e.depth ≤ 2 * budget + 5 := by
        rintro e (h | ⟨op, hl, hr⟩)
        · exact Nat.le_succ_of_le (ih h)
        · have hleft := hl.depth_le
          have hright := hr.depth_le
          rw [depth]
          omega
      exact Alternatives.depth_le hterm h

end Expr

-- The expressions of a parameter, a definition's body and an assignment.
def Param.exprs : Param → List Expr
  | .ordinary _ hint default => hint.toList ++ default.toList
  | .star _ hint | .doubleStar _ hint => hint.toList
  | .bareStar | .ellipsis => []

def DefBody.exprs : DefBody → List Expr
  | .external => []
  | .declared params returns raises mutators =>
      params.flatMap Param.exprs ++ returns.toList ++ raises ++ mutators.map (·.2)

def Assigned.exprs : Assigned → List Expr
  | .declared hint _ => [hint]
  | .value given comment => given :: comment.toList

section

variable {T P : Expr → Prop}

theorem Param.Over.forall_exprs {param : Param} (ht : ∀ e, T e → P e)
    (hd : ∀ e : Expr, e.IsDefault → P e) (h : param.Over T) : ∀ e ∈ param.exprs, P e := by
  have hhint : ∀ {hint : Option Expr}, (∀ type ∈ hint, T type) → ∀ e ∈ hint.toList, P e :=
    fun h e he => ht e (h e (Option.mem_toList.mp he))
  cases param with
  | ordinary name hint default =>
      exact List.forall_mem_append.mpr
        ⟨hhint h.2.1, fun e he => hd e (h.2.2 e (Option.mem_toList.mp he))⟩
  | star name hint => exact hhint h.2
  | doubleStar name hint => exact hhint h.2
  | bareStar => exact fun e he => absurd he List.not_mem_nil
  | ellipsis => exact fun e he => absurd he List.not_mem_nil

theorem DefBody.Over.forall_exprs {body : DefBody} (ht : ∀ e, T e → P e)
    (hd : ∀ e : Expr, e.IsDefault → P e) (h : body.Over T) : ∀ e ∈ body.exprs, P e := by
  cases body with
  | external => exact fun e he => absurd he List.not_mem_nil
  | declared params returns raises mutators =>
      obtain ⟨hp, hr, hra, hm⟩ := h
      simp only [DefBody.exprs, List.mem_append, List.mem_flatMap, List.mem_map]
      rintro e (((⟨param, hparam, he⟩ | he) | he) | ⟨mutator, hmutator, rfl⟩)
      · exact (hp param hparam).forall_exprs ht hd e he
      · exact ht e (hr e (Option.mem_toList.mp he))
      · exact ht e (hra e he)
      · exact ht _ (hm mutator hmutator)

theorem Assigned.Over.forall_exprs {assigned : Assigned} (ht : ∀ e, T e → P e)
    (hd : ∀ e : Expr, e.IsDefault → P e) (h : assigned.Over T) : ∀ e ∈ assigned.exprs, P e := by
  cases assigned with
  | declared hint placeholder => exact List.forall_mem_singleton.mpr (ht hint h)
  | value given comment =>
      refine List.forall_mem_cons.mpr ⟨?_, fun e he => ht e (h.2 e (Option.mem_toList.mp he))⟩
      exact h.1.elim (fun hp => hd given hp.isDefault) (ht given)

end

namespace Stmt

-- The expressions of a statement, those of its blocks left out.
def exprs : Stmt → List Expr
  | .definition _ d => d.body.exprs
  | .classDef _ _ args _ => args.map (·.value)
  | .conditional _ _ condition _ _ => [condition]
  | .assign _ _ assigned => assigned.exprs
  | .typeVar _ _ _ constraints keywords => constraints ++ keywords.map (·.2)
  | .importModules _ _ | .importFrom _ _ _ | .importAll _ _ => []

-- They are types, conditions and what may stand as a default.
theorem Over.forall_exprs {T C P : Expr → Prop} {B : Grammar.Scope → Stmt → Prop}
    {scope : Grammar.Scope} {statement : Stmt} (ht : ∀ e, T e → P e) (hc : ∀ e, C e → P e)
    (hd : ∀ e : Expr, e.IsDefault → P e) (h : Over T C B scope statement) :
    ∀ e ∈ statement.exprs, P e := by
  cases h with
  | definition h => exact h.2.2.forall_exprs ht hd
  | classDef hs hn ha hbody => exact List.forall_mem_map.mpr fun arg harg => ht _ (ha arg harg)
  | conditional hcond hthen helse => exact List.forall_mem_singleton.mpr (hc _ hcond)
  | chained hcond hthen h => exact List.forall_mem_singleton.mpr (hc _ hcond)
  | assign hn h => exact h.forall_exprs ht hd
  | typeVar hs hn hcs hk =>
      refine List.forall_mem_append.mpr ⟨fun e he => ht e (hcs e he), ?_⟩
      refine List.forall_mem_map.mpr fun keyword hkeyword => ?_
      obtain ⟨value, hvalue⟩ | htype := hk keyword hkeyword
      · exact hd _ (hvalue ▸ trivial)
      · exact ht _ htype
  | importModules => exact fun e he => absurd he List.not_mem_nil
  | importFrom => exact fun e he => absurd he List.not_mem_nil
  | importAll => exact fun e he => absurd he List.not_mem_nil

end Stmt

namespace Stmt

mutual

-- The levels of a statement, one for each block, each expression inside another, and each further
-- branch of a conditional, which is a conditional in the else-body of the one before it.
def depth : Stmt → Nat
  | .definition _ d => Expr.depthAll d.body.exprs + 1
  | .classDef _ _ args body => max (Expr.depthAll (args.map (·.value))) (depthAll body) + 1
  | .conditional _ _ condition thenBody elseBody =>
      max condition.depth (max (depthAll thenBody) (depthAll elseBody)) + 1
  | .assign _ _ assigned => Expr.depthAll assigned.exprs + 1
  | .typeVar _ _ _ constraints keywords =>
      Expr.depthAll (constraints ++ keywords.map (·.2)) + 1
  | .importModules _ _ | .importFrom _ _ _ | .importAll _ _ => 1

def depthAll : List Stmt → Nat
  | [] => 0
  | statement :: rest => max statement.depth (depthAll rest)

end

-- How many further branches follow in the else-body of a conditional.
def chainLength : List Stmt → Nat
  | [.conditional _ true _ _ elseBody] => chainLength elseBody + 1
  | _ => 0

-- The further branches of a statement.
def branches : Stmt → Nat
  | .conditional _ _ _ _ elseBody => chainLength elseBody
  | _ => 0

mutual

-- The most further branches of a conditional anywhere inside.
def longestChain : Stmt → Nat
  | .classDef _ _ _ body => longestChainIn body
  | .conditional _ _ _ thenBody elseBody =>
      max (chainLength elseBody) (max (longestChainIn thenBody) (longestChainIn elseBody))
  | _ => 0

def longestChainIn : List Stmt → Nat
  | [] => 0
  | statement :: rest => max statement.longestChain (longestChainIn rest)

end

section

variable {body : List Stmt} {bound : Nat}

theorem depthAll_le (h : ∀ statement ∈ body, statement.depth ≤ bound) : depthAll body ≤ bound := by
  induction body with
  | nil => exact Nat.zero_le _
  | cons statement rest ih =>
      obtain ⟨hs, hrest⟩ := List.forall_mem_cons.mp h
      exact Nat.max_le.mpr ⟨hs, ih hrest⟩

theorem longestChain_le_of_mem (h : longestChainIn body ≤ bound) :
    ∀ statement ∈ body, statement.longestChain ≤ bound := by
  induction body with
  | nil => exact fun _ hm => absurd hm List.not_mem_nil
  | cons statement rest ih =>
      obtain ⟨hs, hrest⟩ := Nat.max_le.mp h
      exact List.forall_mem_cons.mpr ⟨hs, ih hrest⟩

end

section

variable {T C : Expr → Prop} {B : Grammar.Scope → Stmt → Prop} {scope : Grammar.Scope}
  {statement : Stmt} {bound chain : Nat}

theorem branches_le_longestChain (statement : Stmt) :
    statement.branches ≤ statement.longestChain := by
  cases statement with
  | conditional => exact Nat.le_max_left ..
  | _ => exact Nat.zero_le _

-- A statement is one level deeper than its parts, and each of its further branches is one more.
theorem Over.depth_le (ht : ∀ e, T e → e.depth ≤ bound) (hc : ∀ e, C e → e.depth ≤ bound)
    (hb : ∀ scope statement, B scope statement → statement.longestChain ≤ chain →
      statement.depth ≤ bound)
    (h1 : 1 ≤ bound) (h : Over T C B scope statement) (hl : statement.longestChain ≤ chain) :
    statement.depth ≤ bound + 1 + statement.branches := by
  have hblock : ∀ {scope : Grammar.Scope} {body : List Stmt},
      (∀ statement ∈ body, B scope statement) → longestChainIn body ≤ chain →
        depthAll body ≤ bound :=
    fun h hl => depthAll_le fun statement hm =>
      hb _ statement (h statement hm) (longestChain_le_of_mem hl statement hm)
  have hown : ∀ statement, Over T C B scope statement →
      Expr.depthAll statement.exprs ≤ bound :=
    fun _ h => Expr.depthAll_le
      (h.forall_exprs ht hc fun e he => Nat.le_trans (Expr.IsDefault.depth_le he) h1)
  induction h with
  | @definition place d h =>
      exact Nat.succ_le_succ (hown (.definition place d) (.definition h))
  | @classDef place name args body hs hn ha hbody =>
      have hargs := hown (.classDef place name args body) (.classDef hs hn ha hbody)
      exact Nat.succ_le_succ (Nat.max_le.mpr ⟨hargs, hblock hbody hl⟩)
  | conditional hcond hthen helse =>
      simp only [longestChain, Nat.max_le] at hl
      have hcondition := hc _ hcond
      have hfirst := hblock hthen hl.2.1
      have hsecond := hblock helse hl.2.2
      rw [depth]
      omega
  | @chained place next isElif condition other thenBody otherBody elseBody hcond hthen h ih =>
      simp only [longestChain, longestChainIn, Nat.max_le] at hl ih
      have hcondition := hc _ hcond
      have hfirst := hblock hthen hl.2.1
      have hnext := ih hl.2.2.1
      simp only [depth, depthAll, branches, chainLength] at hnext ⊢
      omega
  | @assign place target assigned hn h =>
      exact Nat.succ_le_succ (hown (.assign place target assigned) (.assign hn h))
  | @typeVar place name declaredName constraints keywords hs hn hcs hk =>
      exact Nat.succ_le_succ
        (hown (.typeVar place name declaredName constraints keywords) (.typeVar hs hn hcs hk))
  | importModules => exact Nat.le_add_left ..
  | importFrom => exact Nat.le_add_left ..
  | importAll => exact Nat.le_add_left ..

theorem Within.depth_le {budget : Nat} (h : Within budget scope statement)
    (hl : statement.longestChain ≤ chain) :
    statement.depth ≤ 2 * budget + 5 + (budget + 1) * chain := by
  have htypes : ∀ {budget bound : Nat}, 2 * budget + 4 ≤ bound →
      ∀ e, Expr.TypeWithin budget e → e.depth ≤ bound :=
    fun hle e he => Nat.le_trans he.depth_le (by omega)
  have hconditions : ∀ {budget bound : Nat}, 2 * budget + 4 ≤ bound →
      ∀ e, Expr.ConditionWithin budget e → e.depth ≤ bound :=
    fun hle e he => Nat.le_trans he.depth_le hle
  induction budget generalizing scope statement with
  | zero =>
      have hbranches := statement.branches_le_longestChain
      have hdepth : statement.depth ≤ 4 + 1 + statement.branches :=
        Over.depth_le (htypes (Nat.le_refl _)) (hconditions (Nat.le_refl _)) (fun _ _ => False.elim)
          (by omega) h hl
      omega
  | succ budget ih =>
      have hbranches := statement.branches_le_longestChain
      have hdepth : statement.depth ≤
          2 * budget + 6 + (budget + 1) * chain + 1 + statement.branches :=
        Over.depth_le (htypes (by omega)) (hconditions (by omega))
          (fun _ _ hb hl => Nat.le_trans (ih hb hl) (by omega)) (by omega) h hl
      have hmul : (budget + 1 + 1) * chain = (budget + 1) * chain + chain := Nat.succ_mul ..
      omega

end

-- A chain of branches is as deep as it is long.
theorem chainLength_le_depth (body : List Stmt) : chainLength body ≤ depthAll body := by
  fun_induction chainLength body with
  | case1 place condition thenBody elseBody ih =>
      simp only [depthAll, depth]
      omega
  | case2 => exact Nat.zero_le _

mutual

theorem longestChain_le_depth : ∀ statement : Stmt, statement.longestChain ≤ statement.depth
  | .classDef place name args body => by
      have hbody := longestChainIn_le_depth body
      rw [longestChain, depth]
      omega
  | .conditional place isElif condition thenBody elseBody => by
      have hchain := chainLength_le_depth elseBody
      have hthen := longestChainIn_le_depth thenBody
      have helse := longestChainIn_le_depth elseBody
      rw [longestChain, depth]
      omega
  | .definition _ _ | .assign _ _ _ | .typeVar _ _ _ _ _ | .importModules _ _ | .importFrom _ _ _
  | .importAll _ _ => Nat.zero_le _

theorem longestChainIn_le_depth : ∀ body : List Stmt, longestChainIn body ≤ depthAll body
  | [] => Nat.le_refl _
  | statement :: rest => by
      have hs := longestChain_le_depth statement
      have hrest := longestChainIn_le_depth rest
      rw [longestChainIn, depthAll]
      omega

end

end Stmt

end TypeStub
