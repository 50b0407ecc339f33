import TypeStub.Number.Binary64
import TypeStub.Token

namespace TypeStub

inductive CompareOp
  | eq | notEq | less | lessEq | greater | greaterEq
  deriving DecidableEq, Repr

namespace CompareOp

def all : List CompareOp := [.eq, .notEq, .less, .lessEq, .greater, .greaterEq]

def display : CompareOp → Text
  | eq => "=="
  | notEq => "!="
  | less => "<"
  | lessEq => "<="
  | greater => ">"
  | greaterEq => ">="

end CompareOp

-- An expression as it is written: a type, an operand of a condition, or a default value.
inductive Expr
  | name (id : Text)
  | int (value : Int)
  | float (value : Binary64)
  | string (value : Text)
  | bool (value : Bool)
  | ellipsis
  | question
  | tuple (elements : List Expr)
  | list (elements : List Expr)
  | or (operands : List Expr)
  | subscript (value : Expr) (elements : List Expr)
  | slice (start stop step : Option Expr)
  | compare (left : Expr) (op : CompareOp) (right : Expr)
  | record (name : Text) (fields : List (Text × Expr))
  deriving Repr

-- One parameter of a definition as it is written.
inductive Param
  | ordinary (name : Text) (hint default : Option Expr)
  | bareStar
  | star (name : Text) (hint : Option Expr)
  | doubleStar (name : Text) (hint : Option Expr)
  | ellipsis
  deriving Repr

-- A definition gives a signature or leaves it to native code.
inductive DefBody
  | external
  | declared (params : List Param) (returns : Option Expr) (raises : List Expr)
      (mutators : List (Text × Expr))
  deriving Repr

structure Def where
  name : Text
  decorators : List Text
  body : DefBody
  deriving Repr

-- A class argument: a parent, or a value under a keyword.
structure ClassArg where
  keyword : Option Text
  value : Expr
  deriving Repr

-- An imported name and the local name given to it.
structure ImportedName where
  name : Text
  asName : Option Text
  deriving Repr

-- The right-hand side of an assignment: `x: T [= ...]`, or `x = value [# type: T]`.
inductive Assigned
  | declared (hint : Expr) (placeholder : Bool)
  | value (value : Expr) (comment : Option Expr)
  deriving Repr

-- A statement has the place of its first token. An `elif` is a conditional of its own, the only
-- statement of the branch before it.
inductive Stmt
  | definition (place : Place) (definition : Def)
  | classDef (place : Place) (name : Text) (args : List ClassArg) (body : List Stmt)
  | conditional (place : Place) (isElif : Bool) (condition : Expr)
      (thenBody elseBody : List Stmt)
  | assign (place : Place) (target : Text) (assigned : Assigned)
  | typeVar (place : Place) (name declaredName : Text) (constraints : List Expr)
      (keywords : List (Text × Expr))
  | importModules (place : Place) (modules : List ImportedName)
  | importFrom (place : Place) (module : Text) (names : List ImportedName)
  | importAll (place : Place) (module : Text)
  deriving Repr

inductive NodeKind
  | module | functionDef | classDef | ifStmt | assignStmt | typeVarStmt | importStmt | importFrom
  | name | intLiteral | floatLiteral | stringLiteral | boolLiteral | ellipsisLiteral | questionType
  | tupleLiteral | listLiteral | subscript | slice | orExpr | compare | namedTupleExpr
  deriving DecidableEq, Repr

namespace NodeKind

def all : List NodeKind :=
  [.module, .functionDef, .classDef, .ifStmt, .assignStmt, .typeVarStmt, .importStmt, .importFrom,
   .name, .intLiteral, .floatLiteral, .stringLiteral, .boolLiteral, .ellipsisLiteral,
   .questionType, .tupleLiteral, .listLiteral, .subscript, .slice, .orExpr, .compare,
   .namedTupleExpr]

def display : NodeKind → Text
  | module => "Module"
  | functionDef => "FunctionDef"
  | classDef => "ClassDef"
  | ifStmt => "IfStmt"
  | assignStmt => "AssignStmt"
  | typeVarStmt => "TypeVarStmt"
  | importStmt => "Import"
  | importFrom => "ImportFrom"
  | name => "Name"
  | intLiteral => "IntLiteral"
  | floatLiteral => "FloatLiteral"
  | stringLiteral => "StringLiteral"
  | boolLiteral => "BoolLiteral"
  | ellipsisLiteral => "EllipsisLiteral"
  | questionType => "QuestionType"
  | tupleLiteral => "TupleLiteral"
  | listLiteral => "ListLiteral"
  | subscript => "Subscript"
  | slice => "Slice"
  | orExpr => "OrExpr"
  | compare => "Compare"
  | namedTupleExpr => "NamedTupleExpr"

end NodeKind

def Expr.kind : Expr → NodeKind
  | .name _ => .name
  | .int _ => .intLiteral
  | .float _ => .floatLiteral
  | .string _ => .stringLiteral
  | .bool _ => .boolLiteral
  | .ellipsis => .ellipsisLiteral
  | .question => .questionType
  | .tuple _ => .tupleLiteral
  | .list _ => .listLiteral
  | .or _ => .orExpr
  | .subscript _ _ => .subscript
  | .slice _ _ _ => .slice
  | .compare _ _ _ => .compare
  | .record _ _ => .namedTupleExpr

namespace Stmt

def kind : Stmt → NodeKind
  | .definition _ _ => .functionDef
  | .classDef _ _ _ _ => .classDef
  | .conditional _ _ _ _ _ => .ifStmt
  | .assign _ _ _ => .assignStmt
  | .typeVar _ _ _ _ _ => .typeVarStmt
  | .importModules _ _ => .importStmt
  | .importFrom _ _ _ | .importAll _ _ => .importFrom

def place : Stmt → Place
  | .definition place _ => place
  | .classDef place _ _ _ => place
  | .conditional place _ _ _ _ => place
  | .assign place _ _ => place
  | .typeVar place _ _ _ _ => place
  | .importModules place _ => place
  | .importFrom place _ _ => place
  | .importAll place _ => place

end Stmt

end TypeStub
