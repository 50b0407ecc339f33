import TypeStub.Fault
import TypeStub.Module
import TypeStub.Names

namespace TypeStub

-- The record classes met so far: every name that was opened, the last first, and the finished
-- classes in order of completion.
structure Records where
  opened : List Text
  classes : List StubClass

def Records.none : Records := ⟨[], []⟩

-- The class name of the next record of a name: the name itself, then the name with a number. The
-- program counts with 32 bits, which is no limit: a record is written with seventeen characters or
-- more, so that 2 ^ 31 of them take a source of more than 34 billion.
def Records.className (records : Records) (name : Text) : Text :=
  match records.opened.count name with
  | 0 => '\x60' :: name ++ ['\x60']
  | seen => '\x60' :: name ++ '~' :: Text.ofNat seen ++ ['\x60']

-- A conversion may make record classes, also when it fails later on.
abbrev Convert := EStateM TypeError Records

namespace Convert

def tupleBase : Ty := .named "tuple"

def isEllipsis : Expr → Bool
  | .ellipsis => true
  | _ => false

-- A bare name. A union and an optional type need their members.
def nameType (names : Names) (id : Text) : Convert Ty :=
  let type := names.resolve id
  if type.isNamed "typing.Union" then throw (.missingOptions "typing.Union")
  else if type.isNamed "typing.Optional" then throw (.missingOptions "typing.Optional")
  else return type

-- An ellipsis is allowed as the last parameter only, and not after another one.
def checkEllipses (elements : List Expr) : Convert Unit := do
  if elements.length = 2 ∧ elements.all isEllipsis then throw .doubleEllipsis
  if elements.dropLast.any isEllipsis then throw .ellipsisNotLast

-- A parametrized type. `B[T, ...]` is the homogeneous `B[T]`, and so is `B[...]`.
def parametrized (base : Ty) (elements : List Expr) (params : List Ty) : Ty :=
  if elements.getLast?.any isEllipsis ∧ elements.length ≤ 2 then .generic base (params.take 1)
  else if base.isNamed "tuple" then .tuple base params
  else .generic base params

-- Whether an argument list has the one element `...` or `nothing`.
def isNoArguments : List Expr → Bool
  | [.ellipsis] => true
  | [.name id] => id == "nothing"
  | _ => false

-- A callable type whose arguments are no list: they have to be open.
def openCallable (base argument result : Ty) : Convert Ty :=
  if argument.kind = .anything then return .generic base [argument, result]
  else throw .callableArguments

-- Takes the class name of a new record.
def openRecord (name : Text) : Convert Text := fun records =>
  .ok (records.className name) { records with opened := name :: records.opened }

def recordParent : List Ty → Ty
  | [] => .generic tupleBase [.nothing]
  | types => .tuple tupleBase types

def addRecord (className : Text) (fields : List Constant) : Convert Ty := fun records =>
  let record : StubClass :=
    { name := className
      parents := [recordParent (fields.map (·.type))]
      metaclass := none
      constants := fields
      methods := [] }
  .ok (.named className) { records with classes := records.classes ++ [record] }

mutual

-- The type that an expression denotes.
def type (names : Names) : Expr → Convert Ty
  | .name id => nameType names id
  | .question => return .anything
  | .ellipsis => return .anything
  | .or operands => do return .unionOf (← types names operands)
  | .list [] => return .generic tupleBase [.nothing]
  | .list elements => do
      checkEllipses elements
      return parametrized tupleBase elements (← types names elements)
  | .subscript (.name id) elements => do
      let base := names.resolve id
      if base.isNamed "typing.Callable" then callable names base elements
      else if base.isNamed "typing.Union" then return .unionOf (← types names elements)
      else if base.isNamed "typing.Optional" then
        return .unionOf ((← types names elements) ++ [.named "NoneType"])
      else
        checkEllipses elements
        return parametrized base elements (← types names elements)
  | .subscript _ _ => throw .unexpectedSubscript
  | .record name fields => do
      let className ← openRecord name
      addRecord className (← recordFields names fields)
  | .int _ => throw (.unexpected .intLiteral)
  | .float _ => throw (.unexpected .floatLiteral)
  | .string _ => throw (.unexpected .stringLiteral)
  | .bool _ => throw (.unexpected .boolLiteral)
  | .tuple _ => throw (.unexpected .tupleLiteral)
  | .slice _ _ _ => throw (.unexpected .slice)
  | .compare _ _ _ => throw (.unexpected .compare)

def types (names : Names) : List Expr → Convert (List Ty)
  | [] => return []
  | element :: rest => do
      let first ← type names element
      return first :: (← types names rest)

-- The result of a callable type is converted before its arguments.
def callable (names : Names) (base : Ty) : List Expr → Convert Ty
  | [] => return .callable base [] .anything
  | [.list elements] => do
      if isNoArguments elements then return .callable base [] .anything
      return .callable base (← types names elements) .anything
  | [arguments] => do openCallable base (← type names arguments) .anything
  | [.list elements, result] => do
      let result ← type names result
      if isNoArguments elements then return .callable base [] result
      return .callable base (← types names elements) result
  | [arguments, result] => do
      let result ← type names result
      openCallable base (← type names arguments) result
  | elements => throw (.callableCount elements.length)

def recordFields (names : Names) : List (Text × Expr) → Convert (List Constant)
  | [] => return []
  | (name, field) :: rest => do
      let type ← type names field
      return ⟨name, type⟩ :: (← recordFields names rest)

end

end Convert

-- Conversions one after another, each at its own line, that share their records. The first
-- failure stays: every later conversion that fails reports it again.
namespace Conversions

structure State where
  records : Records
  failure : Option Fault

def start : State := ⟨.none, none⟩

def step (names : Names) (state : State) (expression : Expr) (line : Int) :
    Except Fault Ty × State :=
  match Convert.type names expression state.records with
  | .ok type records => (.ok type, { state with records := records })
  | .error e records =>
      let failure := state.failure.getD ⟨.type e, some line⟩
      (.error failure, ⟨records, some failure⟩)

def run (names : Names) (state : State) :
    List (Expr × Int) → List (Except Fault Ty) × State
  | [] => ([], state)
  | (expression, line) :: rest =>
      let (outcome, state) := step names state expression line
      let (outcomes, state) := run names state rest
      (outcome :: outcomes, state)

end Conversions

end TypeStub
