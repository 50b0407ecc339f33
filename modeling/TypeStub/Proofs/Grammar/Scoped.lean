import TypeStub.Proofs.Grammar.Depth

-- What the later stages take for granted in the tree of a source that parses.
namespace TypeStub

namespace Expr

mutual

-- An expression in which every subscript has an element.
def WellIndexed : Expr → Prop
  | .tuple elements | .list elements | .or elements => AllWellIndexed elements
  | .subscript value elements => elements ≠ [] ∧ value.WellIndexed ∧ AllWellIndexed elements
  | .slice start stop step => MaybeWellIndexed start ∧ MaybeWellIndexed stop ∧ MaybeWellIndexed step
  | .compare left _ right => left.WellIndexed ∧ right.WellIndexed
  | .record _ fields => FieldsWellIndexed fields
  | _ => True

def AllWellIndexed : List Expr → Prop
  | [] => True
  | e :: rest => e.WellIndexed ∧ AllWellIndexed rest

def MaybeWellIndexed : Option Expr → Prop
  | none => True
  | some e => e.WellIndexed

def FieldsWellIndexed : List (Text × Expr) → Prop
  | [] => True
  | (_, type) :: rest => type.WellIndexed ∧ FieldsWellIndexed rest

end

theorem allWellIndexed {elements : List Expr} (h : ∀ e ∈ elements, e.WellIndexed) :
    AllWellIndexed elements := by
  induction elements with
  | nil => trivial
  | cons e rest ih =>
      obtain ⟨he, hrest⟩ := List.forall_mem_cons.mp h
      exact ⟨he, ih hrest⟩

theorem fieldsWellIndexed {fields : List (Text × Expr)}
    (h : ∀ field ∈ fields, field.2.WellIndexed) : FieldsWellIndexed fields := by
  induction fields with
  | nil => trivial
  | cons field rest ih =>
      obtain ⟨hf, hrest⟩ := List.forall_mem_cons.mp h
      exact ⟨hf, ih hrest⟩

theorem Alternatives.wellIndexed {A : Expr → Prop} {e : Expr} (ha : ∀ e, A e → e.WellIndexed)
    (h : Alternatives A e) : e.WellIndexed := by
  cases h with
  | single h => exact ha e h
  | or hl h => exact allWellIndexed fun e he => ha e (h e he)

theorem TypeNode.wellIndexed {T : Expr → Prop} {e : Expr} (ht : ∀ e, T e → e.WellIndexed)
    (h : TypeNode T e) : e.WellIndexed := by
  cases h with
  | inner h => exact ht e h
  | name h => trivial
  | question => trivial
  | ellipsis => trivial
  | list h => exact allWellIndexed fun e he => ht e (h e he)
  | subscript hn hne h => exact ⟨hne, trivial, allWellIndexed fun e he => ht e (h e he)⟩
  | record h => exact fieldsWellIndexed fun field hf => ht field.2 (h field hf)

theorem TypeWithin.wellIndexed {budget : Nat} {e : Expr} (h : TypeWithin budget e) :
    e.WellIndexed := by
  induction budget generalizing e with
  | zero => exact absurd h id
  | succ budget ih => exact Alternatives.wellIndexed (fun _ hn => hn.wellIndexed fun _ => ih) h

theorem IsNumber.wellIndexed {e : Expr} (h : IsNumber e) : e.WellIndexed := by
  cases h <;> trivial

theorem IsDefault.wellIndexed {e : Expr} (h : e.IsDefault) : e.WellIndexed := by
  cases e <;> trivial

theorem IsIndex.wellIndexed {e : Expr} (h : IsIndex e) : e.WellIndexed := by
  cases h with
  | number h => exact h.wellIndexed
  | slice ha ho he =>
      have hpart : ∀ {part : Option Expr}, (∀ e ∈ part, IsNumber e) → MaybeWellIndexed part := by
        intro part h
        cases part with
        | none => trivial
        | some e => exact (h e rfl).wellIndexed
      exact ⟨hpart ha, hpart ho, hpart he⟩

-- A name that is indexed has one index.
theorem IsSubject.wellIndexed {e : Expr} (h : IsSubject e) : e.WellIndexed := by
  cases h with
  | name h => trivial
  | indexed hn hi => exact ⟨List.cons_ne_nil _ _, trivial, hi.wellIndexed, trivial⟩

theorem ValueWithin.wellIndexed {budget : Nat} {e : Expr} (h : ValueWithin budget e) :
    e.WellIndexed := by
  induction budget generalizing e with
  | zero => exact absurd h id
  | succ budget ih =>
      cases h with
      | number h => exact h.wellIndexed
      | string text => trivial
      | tuple h => exact allWellIndexed fun e he => ih (h e he)

theorem ConditionWithin.wellIndexed {budget : Nat} {e : Expr} (h : ConditionWithin budget e) :
    e.WellIndexed := by
  induction budget generalizing e with
  | zero => exact absurd h id
  | succ budget ih =>
      refine Alternatives.wellIndexed (fun e ht => ?_) h
      cases ht with
      | inner h => exact ih h
      | compare op hl hr => exact ⟨hl.wellIndexed, hr.wellIndexed⟩

mutual

-- Comparisons of what can be compared, with `or` between them.
def IsCondition : Expr → Prop
  | .or operands => AreConditions operands
  | .compare left _ _ => IsSubject left
  | _ => False

def AreConditions : List Expr → Prop
  | [] => True
  | e :: rest => e.IsCondition ∧ AreConditions rest

end

theorem areConditions {operands : List Expr} (h : ∀ e ∈ operands, e.IsCondition) :
    AreConditions operands := by
  induction operands with
  | nil => trivial
  | cons e rest ih =>
      obtain ⟨he, hrest⟩ := List.forall_mem_cons.mp h
      exact ⟨he, ih hrest⟩

theorem ConditionWithin.isCondition {budget : Nat} {e : Expr} (h : ConditionWithin budget e) :
    e.IsCondition := by
  induction budget generalizing e with
  | zero => exact absurd h id
  | succ budget ih =>
      have hterm : ∀ e, TermNode (ConditionWithin budget) (ValueWithin budget) e →
          e.IsCondition := by
        rintro e (h | ⟨op, hl, hr⟩)
        · exact ih h
        · exact hl
      obtain h | ⟨hl, h⟩ := h
      · exact hterm e h
      · exact areConditions fun e he => hterm e (h e he)

end Expr

namespace Stmt

open Grammar

mutual

-- A statement and those of its blocks, at any depth.
def nested : Stmt → List Stmt
  | .classDef place name args body => .classDef place name args body :: nestedAll body
  | .conditional place isElif condition thenBody elseBody =>
      .conditional place isElif condition thenBody elseBody ::
        (nestedAll thenBody ++ nestedAll elseBody)
  | statement => [statement]

def nestedAll : List Stmt → List Stmt
  | [] => []
  | statement :: rest => statement.nested ++ nestedAll rest

end

theorem mem_nestedAll {body : List Stmt} {inner : Stmt} :
    inner ∈ nestedAll body ↔ ∃ statement ∈ body, inner ∈ statement.nested := by
  induction body with
  | nil => simp [nestedAll]
  | cons statement rest ih => simp [nestedAll, ih]

theorem nestedAll_append (body more : List Stmt) :
    nestedAll (body ++ more) = nestedAll body ++ nestedAll more := by
  induction body with
  | nil => rfl
  | cons statement rest ih =>
      rw [List.cons_append, nestedAll, ih, nestedAll, List.append_assoc]

theorem self_mem_nested (statement : Stmt) : statement ∈ statement.nested := by
  cases statement <;> simp [nested]

mutual

-- A statement that belongs in its scope: class bodies have no classes, type variables and imports.
def Scoped (scope : Scope) : Stmt → Prop
  | .definition _ _ | .assign _ _ _ => True
  | .conditional _ _ _ thenBody elseBody => AllScoped scope thenBody ∧ AllScoped scope elseBody
  | .classDef _ _ _ body => scope = .module ∧ AllScoped .classBody body
  | .typeVar _ _ _ _ _ | .importModules _ _ | .importFrom _ _ _ | .importAll _ _ => scope = .module

def AllScoped (scope : Scope) : List Stmt → Prop
  | [] => True
  | statement :: rest => statement.Scoped scope ∧ AllScoped scope rest

end

theorem allScoped_iff {scope : Scope} {body : List Stmt} :
    AllScoped scope body ↔ ∀ statement ∈ body, statement.Scoped scope := by
  induction body with
  | nil => simp [AllScoped]
  | cons statement rest ih => simp [AllScoped, ih]

theorem AllScoped.append {scope : Scope} {body more : List Stmt} (h : AllScoped scope body)
    (hm : AllScoped scope more) : AllScoped scope (body ++ more) := by
  simp only [allScoped_iff, List.mem_append] at *
  exact fun statement hs => hs.elim (h statement) (hm statement)

section

variable {T C : Expr → Prop} {B : Scope → Stmt → Prop} {scope : Scope} {statement : Stmt}

theorem Over.scoped (hb : ∀ scope statement, B scope statement → statement.Scoped scope)
    (h : Over T C B scope statement) : statement.Scoped scope := by
  have hblock : ∀ {scope : Scope} {body : List Stmt}, (∀ statement ∈ body, B scope statement) →
      AllScoped scope body :=
    fun h => allScoped_iff.mpr fun statement hm => hb _ statement (h statement hm)
  induction h with
  | definition h => trivial
  | classDef hs hn ha hbody => exact ⟨hs, hblock hbody⟩
  | conditional hc hthen helse => exact ⟨hblock hthen, hblock helse⟩
  | chained hc hthen h ih => exact ⟨hblock hthen, ih, trivial⟩
  | assign hn h => trivial
  | typeVar hs => exact hs
  | importModules hs => exact hs
  | importFrom hs => exact hs
  | importAll hs => exact hs

theorem Within.scoped {budget : Nat} (h : Within budget scope statement) :
    statement.Scoped scope := by
  induction budget generalizing scope statement with
  | zero => exact Over.scoped (fun _ _ => False.elim) h
  | succ budget ih => exact Over.scoped (fun _ _ => ih) h

-- What holds of every statement that is made so holds of those inside it.
theorem Over.forall_nested {P : Stmt → Prop}
    (hself : ∀ statement, Over T C B scope statement → P statement)
    (hb : ∀ scope statement, B scope statement → ∀ inner ∈ statement.nested, P inner)
    (h : Over T C B scope statement) : ∀ inner ∈ statement.nested, P inner := by
  have hblock : ∀ {scope : Scope} {body : List Stmt}, (∀ statement ∈ body, B scope statement) →
      ∀ inner ∈ nestedAll body, P inner := by
    intro scope body h inner hi
    obtain ⟨statement, hm, hi⟩ := mem_nestedAll.mp hi
    exact hb scope statement (h statement hm) inner hi
  induction h with
  | definition h => exact List.forall_mem_singleton.mpr (hself _ (.definition h))
  | classDef hs hn ha hbody =>
      exact List.forall_mem_cons.mpr ⟨hself _ (.classDef hs hn ha hbody), hblock hbody⟩
  | conditional hc hthen helse =>
      refine List.forall_mem_cons.mpr ⟨hself _ (.conditional hc hthen helse), ?_⟩
      exact List.forall_mem_append.mpr ⟨hblock hthen, hblock helse⟩
  | chained hc hthen h ih =>
      refine List.forall_mem_cons.mpr ⟨hself _ (.chained hc hthen h), ?_⟩
      refine List.forall_mem_append.mpr ⟨hblock hthen, fun inner hi => ?_⟩
      obtain ⟨statement, hm, hi⟩ := mem_nestedAll.mp hi
      exact ih inner (List.mem_singleton.mp hm ▸ hi)
  | assign hn h => exact List.forall_mem_singleton.mpr (hself _ (.assign hn h))
  | typeVar hs hn hc hk => exact List.forall_mem_singleton.mpr (hself _ (.typeVar hs hn hc hk))
  | importModules hs h => exact List.forall_mem_singleton.mpr (hself _ (.importModules hs h))
  | importFrom hs hm h => exact List.forall_mem_singleton.mpr (hself _ (.importFrom hs hm h))
  | importAll hs hm => exact List.forall_mem_singleton.mpr (hself _ (.importAll hs hm))

theorem Within.nested {budget : Nat} (h : Within budget scope statement) :
    ∀ inner ∈ statement.nested, ∃ budget scope, inner.Within budget scope := by
  induction budget generalizing scope statement with
  | zero => exact Over.forall_nested (fun _ h => ⟨0, scope, h⟩) (fun _ _ => False.elim) h
  | succ budget ih => exact Over.forall_nested (fun _ h => ⟨budget + 1, scope, h⟩) (fun _ _ => ih) h

theorem Within.over {budget : Nat} (h : Within budget scope statement) :
    ∃ B, Over (Expr.TypeWithin budget) (Expr.ConditionWithin budget) B scope statement := by
  cases budget with
  | zero => exact ⟨_, h⟩
  | succ budget => exact ⟨_, h⟩

theorem Within.wellIndexed {budget : Nat} (h : Within budget scope statement) :
    ∀ e ∈ statement.exprs, e.WellIndexed := by
  obtain ⟨B, h⟩ := h.over
  exact h.forall_exprs (fun _ => Expr.TypeWithin.wellIndexed)
    (fun _ => Expr.ConditionWithin.wellIndexed) fun _ => Expr.IsDefault.wellIndexed

theorem Over.isCondition {place : Place} {isElif : Bool} {condition : Expr}
    {thenBody elseBody : List Stmt} (hc : ∀ e, C e → e.IsCondition)
    (h : Over T C B scope (.conditional place isElif condition thenBody elseBody)) :
    condition.IsCondition := by
  cases h with
  | conditional h => exact hc _ h
  | chained h => exact hc _ h

theorem Within.isCondition {budget : Nat} {place : Place} {isElif : Bool} {condition : Expr}
    {thenBody elseBody : List Stmt}
    (h : Within budget scope (.conditional place isElif condition thenBody elseBody)) :
    condition.IsCondition := by
  obtain ⟨B, h⟩ := h.over
  exact h.isCondition fun _ => Expr.ConditionWithin.isCondition

end

end Stmt

-- So it is with every statement of a source that parses, at any depth.
theorem parseSource_nested {source : Text} {body : List Stmt}
    (h : parseSource source = .ok body) :
    ∀ inner ∈ Stmt.nestedAll body, ∃ budget scope, inner.Within budget scope := by
  intro inner hi
  obtain ⟨statement, hm, hi⟩ := Stmt.mem_nestedAll.mp hi
  exact (parseSource_within h statement hm).nested inner hi

theorem parseSource_scoped {source : Text} {body : List Stmt}
    (h : parseSource source = .ok body) : Stmt.AllScoped .module body :=
  Stmt.allScoped_iff.mpr fun statement hs => (parseSource_within h statement hs).scoped

end TypeStub
