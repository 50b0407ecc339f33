import TypeStub.Syntax
import TypeStub.Target

namespace TypeStub

-- Why a condition has no value.
inductive ConditionError
  | unsupported
  | unsupportedName (name : Text)
  | indexNotInteger
  | indexOutOfRange
  | elementNotInteger
  | versionNotTuple
  | sliceNotInteger
  | zeroStep
  | platformNotString
  | platformOrder
  deriving DecidableEq, Repr

def ConditionError.message : ConditionError → Text
  | unsupported => "Unsupported condition"
  | unsupportedName name => "Unsupported condition: '" ++ name ++ "'"
  | indexNotInteger => "tuple indices must be integers"
  | indexOutOfRange => "tuple index out of range"
  | elementNotInteger => "an element of sys.version_info must be compared to an integer"
  | versionNotTuple => "sys.version_info must be compared to a tuple of integers"
  | sliceNotInteger => "slice indices must be integers"
  | zeroStep => "slice step cannot be zero"
  | platformNotString => "sys.platform must be compared to a string"
  | platformOrder => "sys.platform must be compared using == or !="

def CompareOp.holds (op : CompareOp) (order : Ordering) : Bool :=
  match op with
  | .eq => order == .eq
  | .notEq => order != .eq
  | .less => order == .lt
  | .lessEq => order != .gt
  | .greater => order == .gt
  | .greaterEq => order != .lt

namespace Condition

def integer? : Expr → Option Int
  | .int value => some value
  | _ => none

-- The components of a tuple of integers.
def integers? : Expr → Option (List Int)
  | .tuple elements => elements.mapM integer?
  | _ => none

-- A part of a slice: missing, or an integer.
def bound (part : Option Expr) : Except ConditionError (Option Int) :=
  match part with
  | none => .ok none
  | some (.int value) => .ok (some value)
  | some _ => .error .sliceNotInteger

-- The name that a comparison tests, and the index or slice applied to it.
def subject? : Expr → Option (Text × Option Expr)
  | .name id => some (id, none)
  | .subscript (.name id) elements => some (id, elements.head?)
  | _ => none

-- One component of the version, a negative index counting from the end.
def element (version : List Int) (index : Int) : Except ConditionError Int :=
  let position := if index < 0 then index + version.length else index
  if position < 0 then .error .indexOutOfRange
  else match version[position.toNat]? with
    | some component => .ok component
    | none => .error .indexOutOfRange

def compareElement (version : List Int) (index : Int) (op : CompareOp) (right : Expr) :
    Except ConditionError Bool := do
  let component ← element version index
  match right with
  | .int expected => return op.holds (compare component expected)
  | _ => throw .elementNotInteger

def compareTuple (version : List Int) (op : CompareOp) (right : Expr) :
    Except ConditionError Bool :=
  match integers? right with
  | some expected => .ok (op.holds (compareVersions version expected))
  | none => .error .versionNotTuple

-- The whole version, a slice of it, or one component, against a tuple or an integer.
def compareVersion (version : List Int) (index : Option Expr) (op : CompareOp) (right : Expr) :
    Except ConditionError Bool :=
  match index with
  | none => compareTuple version op right
  | some (.slice start stop step) => do
      let start ← bound start
      let stop ← bound stop
      let step ← bound step
      match slice? version start stop step with
      | some part => compareTuple part op right
      | none => throw .zeroStep
  | some (.int index) => compareElement version index op right
  | some _ => .error .indexNotInteger

def comparePlatform (platform : Text) (op : CompareOp) (right : Expr) :
    Except ConditionError Bool :=
  match right with
  | .string expected =>
      match op with
      | .eq => .ok (expected = platform)
      | .notEq => .ok (expected ≠ platform)
      | _ => .error .platformOrder
  | _ => .error .platformNotString

-- Only the version and the platform can be tested.
def comparison (target : Target) (left : Expr) (op : CompareOp) (right : Expr) :
    Except ConditionError Bool :=
  match subject? left with
  | none => .error .unsupported
  | some (name, index) =>
      if name = "sys.version_info" then compareVersion (padVersion target.version) index op right
      else if name = "sys.platform" ∧ index.isNone then comparePlatform target.platform op right
      else .error (.unsupportedName name)

mutual

-- The value of a condition for a target.
def evaluate (target : Target) : Expr → Except ConditionError Bool
  | .or operands => evaluateAny target operands
  | .compare left op right => comparison target left op right
  | _ => .error .unsupported

-- The operands from left to right, up to the first that is true or fails.
def evaluateAny (target : Target) : List Expr → Except ConditionError Bool
  | [] => .ok false
  | operand :: rest =>
      match evaluate target operand with
      | .ok false => evaluateAny target rest
      | outcome => outcome

end

end Condition

end TypeStub
