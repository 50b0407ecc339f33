import TypeStub.Convert
import TypeStub.Decorator

namespace TypeStub

-- What is known while a module is built: its names so far and its record classes so far.
structure BuildState where
  names : Names
  records : Records

-- Building stops at the first fault.
abbrev Build := EStateM Fault BuildState

namespace Build

def fault {α : Type} (line : Int32) (cause : Cause) : Build α := throw (.at line cause)

-- The type that an expression denotes in a statement at this line.
def typeAt (line : Int32) (expression : Expr) : Build Ty := fun state =>
  match Convert.type state.names expression state.records with
  | .ok type records => .ok type { state with records := records }
  | .error e records => .error (.at line (.type e)) { state with records := records }

def addImport (name target : Text) : Build Unit :=
  modify fun state => { state with names := state.names.addImport name target }

end Build

-- One definition before those of the same name are merged. The positional parameters are those
-- before any star.
structure Definition where
  name : Text
  decorator : Decorator
  signature? : Option Signature

namespace Definition

def isExternal (d : Definition) : Bool := d.signature?.isNone

end Definition

namespace Build

-- The type of a parameter that has a default and no type of its own.
def defaultType : Expr → Ty
  | .int _ => .named "int"
  | .float _ => .named "float"
  | .bool _ => .named "bool"
  | _ => .named "object"

def isNone : Expr → Bool
  | .name id => id == "None"
  | _ => false

-- A typed parameter with the default `None` is optional in its type too.
def paramType (line : Int32) (hint default : Option Expr) : Build Ty :=
  match hint with
  | none => return (default.map defaultType).getD (.named "object")
  | some hint => do
      let declared ← typeAt line hint
      if default.any isNone then return .unionOf [declared, .named "NoneType"]
      return declared

-- `*args: T` has the type of a tuple of T, and a plain `tuple` without T.
def starType (line : Int32) (hint : Option Expr) : Build Ty :=
  match hint with
  | none => return .named "tuple"
  | some hint => return .generic (.named "tuple") [← typeAt line hint]

-- `**kwargs: T` has the type of a dictionary from names to T, and a plain `dict` without T.
def doubleStarType (line : Int32) (hint : Option Expr) : Build Ty :=
  match hint with
  | none => return .named "dict"
  | some hint => return .generic (.named "dict") [.named "str", ← typeAt line hint]

def plainParameter (name : Text) (type : Ty) : Parameter := ⟨name, type, false, false⟩

-- The parameters read so far, from left to right.
structure ParamScan where
  params : List Parameter
  starArgs : Option Parameter
  starStarArgs : Option Parameter
  sawStar : Bool
  bareStar : Bool
  sawEllipsis : Bool
  sawDoubleStar : Option Text

namespace ParamScan

def start : ParamScan := ⟨[], none, none, false, false, false, none⟩

-- A bare star still waits for a keyword-only parameter.
def isDangling (scan : ParamScan) : Bool := scan.bareStar && !scan.params.any (·.keywordOnly)

end ParamScan

def addParam (line : Int32) (scan : ParamScan) (param : Param) : Build ParamScan := do
  if let some name := scan.sawDoubleStar then fault line (.afterDoubleStar name)
  if scan.sawEllipsis then fault line .afterEllipsis
  match param with
  | .ordinary name hint default =>
      let type ← paramType line hint default
      return { scan with params := scan.params ++ [⟨name, type, default.isSome, scan.sawStar⟩] }
  | .bareStar =>
      if scan.sawStar then fault line .secondStar
      return { scan with sawStar := true, bareStar := true }
  | .star name hint =>
      if scan.sawStar then fault line .secondStar
      let type ← starType line hint
      return { scan with sawStar := true, starArgs := some (plainParameter name type) }
  | .doubleStar name hint =>
      let type ← doubleStarType line hint
      return { scan with
        starStarArgs := some (plainParameter name type), sawDoubleStar := some name }
  | .ellipsis =>
      if scan.isDangling then fault line .ellipsisAfterBareStar
      return { scan with
        sawEllipsis := true
        starArgs := scan.starArgs.or (some (plainParameter "args" (.named "tuple")))
        starStarArgs := scan.starStarArgs.or (some (plainParameter "kwargs" (.named "dict"))) }

def params (line : Int32) (params : List Param) : Build ParamScan := do
  let scan ← params.foldlM (addParam line) ParamScan.start
  if scan.isDangling then fault line .bareStarLast
  return scan

def hasParameter (scan : ParamScan) (name : Text) : Bool :=
  scan.params.any (·.name == name) || scan.starArgs.any (·.name == name) ||
    scan.starStarArgs.any (·.name == name)

def mutator (line : Int32) (scan : ParamScan) (written : Text × Expr) : Build Mutator := do
  let (name, type) := written
  unless hasParameter scan name do fault line (.unknownMutator name)
  return ⟨name, ← typeAt line type⟩

def signature (line : Int32) (written : List Param) (returns : Option Expr) (raises : List Expr)
    (mutators : List (Text × Expr)) : Build Signature := do
  let scan ← params line written
  let returns ← match returns with
    | some type => typeAt line type
    | none => pure .anything
  let exceptions ← raises.mapM (typeAt line)
  let mutators ← mutators.mapM (mutator line scan)
  return ⟨scan.params, scan.starArgs, scan.starStarArgs, returns, exceptions, mutators⟩

def decorator (line : Int32) (d : Def) : Build Decorator :=
  match d.decorators with
  | [] => return .none
  | [text] => return .ofText text
  | _ => fault line (.tooManyDecorators d.name)

def definition (line : Int32) (d : Def) : Build Definition := do
  let decorator ← decorator line d
  match d.body with
  | .external => return ⟨d.name, decorator, none⟩
  | .declared params returns raises mutators =>
      return ⟨d.name, decorator, some (← signature line params returns raises mutators)⟩

end Build

end TypeStub
