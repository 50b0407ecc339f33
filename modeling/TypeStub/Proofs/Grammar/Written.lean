import TypeStub.Syntax
import TypeStub.Proofs.Token.Identifier

namespace TypeStub

namespace Expr

mutual

-- An expression that the grammar of types can make.
def IsType : Expr → Prop
  | .name id => DottedName id
  | .question | .ellipsis => True
  | .list elements => AreTypes elements
  | .or operands => 2 ≤ operands.length ∧ AreTypes operands
  | .subscript (.name id) elements => DottedName id ∧ elements ≠ [] ∧ AreTypes elements
  | .record _ fields => AreFields fields
  | _ => False

def AreTypes : List Expr → Prop
  | [] => True
  | element :: rest => element.IsType ∧ AreTypes rest

def AreFields : List (Text × Expr) → Prop
  | [] => True
  | (_, type) :: rest => type.IsType ∧ AreFields rest

end

theorem areTypes_iff (elements : List Expr) :
    AreTypes elements ↔ ∀ element ∈ elements, element.IsType := by
  induction elements with
  | nil => simp [AreTypes]
  | cons element rest ih => simp [AreTypes, ih]

theorem areFields_iff (fields : List (Text × Expr)) :
    AreFields fields ↔ ∀ field ∈ fields, field.2.IsType := by
  induction fields with
  | nil => simp [AreFields]
  | cons field rest ih => simp [AreFields, ih]

-- What may stand after the equals sign of an assignment.
def IsValue : Expr → Prop
  | .int _ | .float _ | .bool _ | .ellipsis => True
  | value => value.IsType

end Expr

-- The module of a from-import: dots alone, or dots before a name.
inductive SourceModule : Text → Prop
  | dots (count : Nat) : SourceModule (List.replicate (count + 1) '.')
  | named (count : Nat) {name : Text} (h : DottedName name) :
      SourceModule (List.replicate count '.' ++ name)

def Param.IsWritten : Param → Prop
  | .ordinary name hint _ => Identifier name ∧ ∀ type ∈ hint, type.IsType
  | .star name hint | .doubleStar name hint => Identifier name ∧ ∀ type ∈ hint, type.IsType
  | .bareStar | .ellipsis => True

def DefBody.IsWritten : DefBody → Prop
  | .external => True
  | .declared params returns raises mutators =>
      (∀ param ∈ params, param.IsWritten) ∧ (∀ type ∈ returns, type.IsType) ∧
        (∀ type ∈ raises, type.IsType) ∧ ∀ mutator ∈ mutators, mutator.2.IsType

def Def.IsWritten (d : Def) : Prop :=
  Identifier d.name ∧ (∀ text ∈ d.decorators, DottedName text) ∧ d.body.IsWritten

def ImportedName.IsWritten (valid : Text → Prop) (imported : ImportedName) : Prop :=
  valid imported.name ∧ ∀ name ∈ imported.asName, Identifier name

def Assigned.IsWritten : Assigned → Prop
  | .declared hint _ => hint.IsType
  | .value given comment => given.IsValue ∧ ∀ type ∈ comment, type.IsType

namespace Stmt

mutual

-- A statement that the grammar can make.
def IsWritten : Stmt → Prop
  | .definition _ d => d.IsWritten
  | .classDef _ name args body =>
      Identifier name ∧ (∀ arg ∈ args, arg.value.IsType) ∧ AreWritten body
  | .conditional _ _ _ thenBody elseBody => AreWritten thenBody ∧ AreWritten elseBody
  | .assign _ target assigned => Identifier target ∧ assigned.IsWritten
  | .typeVar _ name _ constraints _ => Identifier name ∧ ∀ type ∈ constraints, type.IsType
  | .importModules _ modules => ∀ imported ∈ modules, imported.IsWritten DottedName
  | .importFrom _ module names =>
      SourceModule module ∧ ∀ imported ∈ names, imported.IsWritten Identifier
  | .importAll _ module => SourceModule module

def AreWritten : List Stmt → Prop
  | [] => True
  | statement :: rest => statement.IsWritten ∧ AreWritten rest

end

theorem areWritten_iff (body : List Stmt) :
    AreWritten body ↔ ∀ statement ∈ body, statement.IsWritten := by
  induction body with
  | nil => simp [AreWritten]
  | cons statement rest ih => simp [AreWritten, ih]

theorem AreWritten.append {body more : List Stmt} (h : AreWritten body) (hm : AreWritten more) :
    AreWritten (body ++ more) := by
  simp only [areWritten_iff, List.mem_append] at *
  exact fun statement hs => hs.elim (h statement) (hm statement)

end Stmt

end TypeStub
