import TypeStub.Grammar.Statement
import TypeStub.Proofs.Grammar.Written

-- What the grammar makes within a budget of nesting. Each shape has the shapes of its parts as
-- parameters, so that one level of the grammar is a step to the next budget.
namespace TypeStub

namespace Expr

-- One operand for itself, or at least two with `or` between them.
inductive Alternatives (A : Expr → Prop) : Expr → Prop
  | single {e : Expr} (h : A e) : Alternatives A e
  | or {operands : List Expr} (hl : 2 ≤ operands.length) (h : ∀ e ∈ operands, A e) :
      Alternatives A (.or operands)

-- A type that is no union, around types that are so. A type in parentheses stands for itself.
inductive TypeNode (T : Expr → Prop) : Expr → Prop
  | inner {e : Expr} (h : T e) : TypeNode T e
  | name {id : Text} (h : DottedName id) : TypeNode T (.name id)
  | question : TypeNode T .question
  | ellipsis : TypeNode T .ellipsis
  | list {elements : List Expr} (h : ∀ e ∈ elements, T e) : TypeNode T (.list elements)
  | subscript {id : Text} {elements : List Expr} (hn : DottedName id) (hne : elements ≠ [])
      (h : ∀ e ∈ elements, T e) : TypeNode T (.subscript (.name id) elements)
  | record {name : Text} {fields : List (Text × Expr)} (h : ∀ field ∈ fields, T field.2) :
      TypeNode T (.record name fields)

def TypeWithin : Nat → Expr → Prop
  | 0 => fun _ => False
  | budget + 1 => Alternatives (TypeNode (TypeWithin budget))

inductive IsNumber : Expr → Prop
  | int (value : Int) : IsNumber (.int value)
  | float (value : Binary64) : IsNumber (.float value)

-- What a name may be indexed with.
inductive IsIndex : Expr → Prop
  | number {e : Expr} (h : IsNumber e) : IsIndex e
  | slice {start stop step : Option Expr} (ha : ∀ e ∈ start, IsNumber e)
      (ho : ∀ e ∈ stop, IsNumber e) (he : ∀ e ∈ step, IsNumber e) :
      IsIndex (.slice start stop step)

-- The left-hand side of a comparison.
inductive IsSubject : Expr → Prop
  | name {id : Text} (h : DottedName id) : IsSubject (.name id)
  | indexed {id : Text} {index : Expr} (hn : DottedName id) (hi : IsIndex index) :
      IsSubject (.subscript (.name id) [index])

-- The right-hand side of a comparison, a tuple of values that are so included.
inductive ValueNode (V : Expr → Prop) : Expr → Prop
  | number {e : Expr} (h : IsNumber e) : ValueNode V e
  | string (text : Text) : ValueNode V (.string text)
  | tuple {elements : List Expr} (h : ∀ e ∈ elements, V e) : ValueNode V (.tuple elements)

def ValueWithin : Nat → Expr → Prop
  | 0 => fun _ => False
  | budget + 1 => ValueNode (ValueWithin budget)

-- A comparison, or a condition in parentheses.
inductive TermNode (C V : Expr → Prop) : Expr → Prop
  | inner {e : Expr} (h : C e) : TermNode C V e
  | compare {left right : Expr} (op : CompareOp) (hl : IsSubject left) (hr : V right) :
      TermNode C V (.compare left op right)

def ConditionWithin : Nat → Expr → Prop
  | 0 => fun _ => False
  | budget + 1 => Alternatives (TermNode (ConditionWithin budget) (ValueWithin budget))

-- What may stand for a type as the value of an assignment.
def IsPlain : Expr → Prop
  | .int _ | .float _ | .bool _ | .ellipsis => True
  | _ => False

-- What may stand after the equals sign of a parameter.
def IsDefault : Expr → Prop
  | .string _ => True
  | .name id => DottedName id
  | e => e.IsPlain

theorem IsNumber.isPlain {e : Expr} (h : IsNumber e) : e.IsPlain := by
  cases h <;> trivial

theorem IsNumber.isDefault {e : Expr} (h : IsNumber e) : e.IsDefault := by
  cases h <;> trivial

theorem TypeNode.isType {T : Expr → Prop} {e : Expr} (ht : ∀ e, T e → e.IsType)
    (h : TypeNode T e) : e.IsType := by
  cases h with
  | inner h => exact ht e h
  | name h => exact h
  | question => trivial
  | ellipsis => trivial
  | list h => exact (areTypes_iff _).mpr fun e he => ht e (h e he)
  | subscript hn hne h => exact ⟨hn, hne, (areTypes_iff _).mpr fun e he => ht e (h e he)⟩
  | record h => exact (areFields_iff _).mpr fun field hf => ht field.2 (h field hf)

theorem TypeWithin.isType {budget : Nat} {e : Expr} (h : TypeWithin budget e) : e.IsType := by
  induction budget generalizing e with
  | zero => exact absurd h id
  | succ budget ih =>
      obtain h | ⟨hl, h⟩ := h
      · exact h.isType fun _ => ih
      · exact ⟨hl, (areTypes_iff _).mpr fun e he => (h e he).isType fun _ => ih⟩

theorem IsPlain.isValue {e : Expr} (h : e.IsPlain) : e.IsValue := by
  cases e <;> first | exact h | exact absurd h id

theorem IsType.isValue {e : Expr} (h : e.IsType) : e.IsValue := by
  cases e <;> first | exact h | trivial

end Expr

section

variable {T : Expr → Prop}

def Param.Over (T : Expr → Prop) : Param → Prop
  | .ordinary name hint default =>
      Identifier name ∧ (∀ type ∈ hint, T type) ∧ ∀ value ∈ default, value.IsDefault
  | .star name hint | .doubleStar name hint => Identifier name ∧ ∀ type ∈ hint, T type
  | .bareStar | .ellipsis => True

def DefBody.Over (T : Expr → Prop) : DefBody → Prop
  | .external => True
  | .declared params returns raises mutators =>
      (∀ param ∈ params, param.Over T) ∧ (∀ type ∈ returns, T type) ∧
        (∀ type ∈ raises, T type) ∧ ∀ mutator ∈ mutators, T mutator.2

def Def.Over (T : Expr → Prop) (d : Def) : Prop :=
  Identifier d.name ∧ (∀ text ∈ d.decorators, DottedName text) ∧ d.body.Over T

def Assigned.Over (T : Expr → Prop) : Assigned → Prop
  | .declared hint _ => T hint
  | .value given comment => (given.IsPlain ∨ T given) ∧ ∀ type ∈ comment, T type

-- A keyword of a type variable has a type or a truth value.
def KeywordOver (T : Expr → Prop) (keyword : Text × Expr) : Prop :=
  (∃ value, keyword.2 = .bool value) ∨ T keyword.2

theorem Param.Over.isWritten {param : Param} (ht : ∀ e, T e → e.IsType) (h : param.Over T) :
    param.IsWritten := by
  cases param with
  | ordinary name hint default => exact ⟨h.1, fun type hm => ht type (h.2.1 type hm)⟩
  | star name hint => exact ⟨h.1, fun type hm => ht type (h.2 type hm)⟩
  | doubleStar name hint => exact ⟨h.1, fun type hm => ht type (h.2 type hm)⟩
  | bareStar => trivial
  | ellipsis => trivial

theorem Def.Over.isWritten {d : Def} (ht : ∀ e, T e → e.IsType) (h : d.Over T) :
    d.IsWritten := by
  obtain ⟨hn, hd, hb⟩ := h
  refine ⟨hn, hd, ?_⟩
  cases hbody : d.body with
  | external => trivial
  | declared params returns raises mutators =>
      rw [hbody] at hb
      obtain ⟨hp, hr, he, hm⟩ := hb
      exact ⟨fun param hmem => (hp param hmem).isWritten ht, fun type hmem => ht type (hr type hmem),
        fun type hmem => ht type (he type hmem), fun mutator hmem => ht _ (hm mutator hmem)⟩

theorem Assigned.Over.isWritten {assigned : Assigned} (ht : ∀ e, T e → e.IsType)
    (h : assigned.Over T) : assigned.IsWritten := by
  cases assigned with
  | declared hint placeholder => exact ht hint h
  | value given comment =>
      refine ⟨?_, fun type hm => ht type (h.2 type hm)⟩
      cases h.1 with
      | inl hp => exact hp.isValue
      | inr hg => exact (ht given hg).isValue

end

namespace Stmt

open Grammar

-- A statement of a scope, with types, conditions and the statements of its blocks as given. Only a
-- module has classes, type variables and imports. Each further branch of a conditional stands alone
-- in the else-body of the one before it, and it is at the same nesting.
inductive Over (T C : Expr → Prop) (B : Scope → Stmt → Prop) (scope : Scope) : Stmt → Prop
  | definition {place : Place} {d : Def} (h : d.Over T) : Over T C B scope (.definition place d)
  | classDef {place : Place} {name : Text} {args : List ClassArg} {body : List Stmt}
      (hs : scope = .module) (hn : Identifier name) (ha : ∀ arg ∈ args, T arg.value)
      (hb : ∀ statement ∈ body, B .classBody statement) :
      Over T C B scope (.classDef place name args body)
  | conditional {place : Place} {isElif : Bool} {condition : Expr} {thenBody elseBody : List Stmt}
      (hc : C condition) (ht : ∀ statement ∈ thenBody, B scope statement)
      (he : ∀ statement ∈ elseBody, B scope statement) :
      Over T C B scope (.conditional place isElif condition thenBody elseBody)
  | chained {place next : Place} {isElif : Bool} {condition other : Expr}
      {thenBody otherBody elseBody : List Stmt} (hc : C condition)
      (ht : ∀ statement ∈ thenBody, B scope statement)
      (h : Over T C B scope (.conditional next true other otherBody elseBody)) :
      Over T C B scope (.conditional place isElif condition thenBody
        [.conditional next true other otherBody elseBody])
  | assign {place : Place} {target : Text} {assigned : Assigned} (hn : Identifier target)
      (h : assigned.Over T) : Over T C B scope (.assign place target assigned)
  | typeVar {place : Place} {name declaredName : Text} {constraints : List Expr}
      {keywords : List (Text × Expr)} (hs : scope = .module) (hn : Identifier name)
      (hc : ∀ type ∈ constraints, T type) (hk : ∀ keyword ∈ keywords, KeywordOver T keyword) :
      Over T C B scope (.typeVar place name declaredName constraints keywords)
  | importModules {place : Place} {modules : List ImportedName} (hs : scope = .module)
      (h : ∀ imported ∈ modules, imported.IsWritten DottedName) :
      Over T C B scope (.importModules place modules)
  | importFrom {place : Place} {module : Text} {names : List ImportedName} (hs : scope = .module)
      (hm : SourceModule module) (h : ∀ imported ∈ names, imported.IsWritten Identifier) :
      Over T C B scope (.importFrom place module names)
  | importAll {place : Place} {module : Text} (hs : scope = .module) (hm : SourceModule module) :
      Over T C B scope (.importAll place module)

-- A statement inside which at most so many blocks are nested.
def Within : Nat → Scope → Stmt → Prop
  | 0 => Over (Expr.TypeWithin 0) (Expr.ConditionWithin 0) fun _ _ => False
  | budget + 1 =>
      Over (Expr.TypeWithin (budget + 1)) (Expr.ConditionWithin (budget + 1)) (Within budget)

theorem Over.isWritten {T C : Expr → Prop} {B : Scope → Stmt → Prop} {scope : Scope}
    {statement : Stmt} (ht : ∀ e, T e → e.IsType)
    (hb : ∀ scope statement, B scope statement → statement.IsWritten)
    (h : Over T C B scope statement) : statement.IsWritten := by
  have hblock : ∀ {scope : Scope} {body : List Stmt},
      (∀ statement ∈ body, B scope statement) → AreWritten body :=
    fun h => (areWritten_iff _).mpr fun statement hm => hb _ statement (h statement hm)
  induction h with
  | definition h => exact h.isWritten ht
  | classDef hs hn ha hbody => exact ⟨hn, fun arg hm => ht _ (ha arg hm), hblock hbody⟩
  | conditional hc hthen helse => exact ⟨hblock hthen, hblock helse⟩
  | chained hc hthen h ih => exact ⟨hblock hthen, ih, trivial⟩
  | assign hn h => exact ⟨hn, h.isWritten ht⟩
  | typeVar hs hn hc hk => exact ⟨hn, fun type hm => ht type (hc type hm)⟩
  | importModules hs h => exact h
  | importFrom hs hm h => exact ⟨hm, h⟩
  | importAll hs hm => exact hm

theorem Within.isWritten {budget : Nat} {scope : Scope} {statement : Stmt}
    (h : Within budget scope statement) : statement.IsWritten := by
  induction budget generalizing scope statement with
  | zero => exact Over.isWritten (fun _ => Expr.TypeWithin.isType) (fun _ _ => False.elim) h
  | succ budget ih => exact Over.isWritten (fun _ => Expr.TypeWithin.isType) (fun _ _ => ih) h

end Stmt

end TypeStub
