import TypeStub.Syntax

-- The outline of a syntax tree: one line per node, two spaces deeper for each level.
namespace TypeStub.Outline

structure Line where
  depth : Nat
  text : Text
  deriving DecidableEq, Repr

def Line.display (line : Line) : Text := Text.spaces (2 * line.depth) ++ line.text ++ "\n"

def line (depth : Nat) (text : Text) : List Line := [⟨depth, text⟩]

mutual

def expr (depth : Nat) : Expr → List Line
  | .name id => line depth ("Name " ++ id)
  | .int value => line depth ("IntLiteral " ++ Text.ofInt value)
  | .float value => line depth ("FloatLiteral " ++ value.fixed 6)
  | .string value => line depth ("StringLiteral \"" ++ value ++ "\"")
  | .bool value => line depth ("BoolLiteral " ++ if value then "True" else "False")
  | .ellipsis => line depth "Ellipsis"
  | .question => line depth "QuestionType"
  | .tuple elements => line depth "TupleLiteral" ++ exprs (depth + 1) elements
  | .list elements => line depth "ListLiteral" ++ exprs (depth + 1) elements
  | .or operands => line depth "OrExpr" ++ exprs (depth + 1) operands
  | .subscript value elements =>
      line depth "Subscript" ++ expr (depth + 1) value ++ exprs (depth + 1) elements
  | .slice start stop step =>
      line depth "Slice" ++ bound (depth + 1) "Start:" start ++ bound (depth + 1) "Stop:" stop ++
        bound (depth + 1) "Step:" step
  | .compare left op right =>
      line depth ("Compare " ++ op.display) ++ expr (depth + 1) left ++ expr (depth + 1) right
  | .record name fields => line depth ("NamedTuple name=" ++ name) ++ recordFields (depth + 1) fields

def exprs (depth : Nat) : List Expr → List Line
  | [] => []
  | e :: rest => expr depth e ++ exprs depth rest

def bound (depth : Nat) (label : Text) : Option Expr → List Line
  | none => []
  | some e => line depth label ++ expr (depth + 1) e

def recordFields (depth : Nat) : List (Text × Expr) → List Line
  | [] => []
  | (name, type) :: rest =>
      line depth ("Field " ++ name ++ ":") ++ expr (depth + 1) type ++ recordFields depth rest

end

def labelled (depth : Nat) (label : Text) (e : Expr) : List Line :=
  line depth label ++ expr (depth + 1) e

def optional (depth : Nat) (e : Option Expr) : List Line := (e.map (expr depth)).getD []

def param (depth : Nat) : Param → List Line
  | .ordinary name hint default =>
      line depth ("Param " ++ name) ++ optional (depth + 1) hint ++
        (default.map (labelled (depth + 1) "Default:")).getD []
  | .bareStar => line depth "Param *"
  | .star name hint => line depth ("Param *" ++ name) ++ optional (depth + 1) hint
  | .doubleStar name hint =>
      line depth ("Param **" ++ name) ++ optional (depth + 1) hint
  | .ellipsis => line depth "Param ..."

def definition (depth : Nat) (d : Def) : List Line :=
  let decorators : Text := d.decorators.flatMap fun name => (" @" ++ name : Text)
  match d.body with
  | .external => line depth ("FunctionDef name=" ++ d.name ++ " PYTHONCODE" ++ decorators)
  | .declared params returns raises mutators =>
      line depth ("FunctionDef name=" ++ d.name ++ decorators) ++
        params.flatMap (param (depth + 1)) ++
        (returns.map (labelled (depth + 1) "Returns:")).getD [] ++
        raises.flatMap (labelled (depth + 1) "Raises:") ++
        mutators.flatMap fun (name, type) =>
          labelled (depth + 1) ("Mutates " ++ name ++ ":") type

def classArg (depth : Nat) (arg : ClassArg) : List Line :=
  match arg.keyword with
  | none => labelled depth "Base:" arg.value
  | some keyword => labelled depth ("Keyword " ++ keyword ++ ":") arg.value

def assigned (depth : Nat) : Assigned → List Line
  | .declared hint placeholder =>
      labelled depth "Annotation:" hint ++ if placeholder then expr depth .ellipsis else []
  | .value value comment =>
      expr depth value ++ (comment.map (labelled depth "TypeComment:")).getD []

def importedName (imported : ImportedName) : Text :=
  match imported.asName with
  | none => imported.name
  | some asName => imported.name ++ " as " ++ asName

def importedNames (names : List ImportedName) : Text :=
  names.flatMap fun imported => (" " ++ importedName imported : Text)

mutual

def stmt (depth : Nat) : Stmt → List Line
  | .definition _ d => definition depth d
  | .classDef _ name args body =>
      line depth ("ClassDef name=" ++ name) ++ args.flatMap (classArg (depth + 1)) ++
        stmts (depth + 1) body
  | .conditional _ isElif condition thenBody elseBody =>
      line depth (if isElif then "ElifStmt" else "IfStmt") ++
        labelled (depth + 1) "Cond:" condition ++
        (if thenBody.isEmpty then [] else line (depth + 1) "Then:") ++
        stmts (depth + 2) thenBody ++
        (if elseBody.isEmpty then [] else line (depth + 1) "Else:") ++
        stmts (depth + 2) elseBody
  | .assign _ target value =>
      line depth ("AssignStmt target=" ++ target) ++ assigned (depth + 1) value
  | .typeVar _ name _ constraints _ =>
      line depth ("TypeVarStmt name=" ++ name) ++ exprs (depth + 1) constraints
  | .importModules _ modules => line depth ("Import" ++ importedNames modules)
  | .importFrom _ module names =>
      line depth ("ImportFrom module=" ++ module ++ importedNames names)
  | .importAll _ module => line depth ("ImportFrom module=" ++ module ++ " *")

def stmts (depth : Nat) : List Stmt → List Line
  | [] => []
  | s :: rest => stmt depth s ++ stmts depth rest

end

-- The outline of a whole stub.
def module (body : List Stmt) : Text :=
  (line 0 "Module" ++ stmts 1 body).flatMap Line.display

end TypeStub.Outline
