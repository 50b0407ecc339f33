import TypeStub.Merge
import TypeStub.Prescan

-- Live statements declare the contents of a module, in source order.
namespace TypeStub.Declare

open Build

-- What an assignment declares: a constant of a type, or another name for its value.
inductive Declared
  | constant (type : Ty)
  | synonym (value : Expr)

-- The type of a constant is its comment's, or else what its value tells.
def constantOf (line : Int32) (comment : Option Expr) (type : Ty) : Build Declared :=
  match comment with
  | some comment => do return .constant (← typeAt line comment)
  | none => return .constant type

def declared (line : Int32) : Assigned → Build Declared
  | .declared hint _ => do return .constant (← typeAt line hint)
  | .value value comment =>
      match value with
      | .ellipsis => constantOf line comment .anything
      | .int value =>
          if value = 0 then constantOf line comment (.named "int") else fault line .nonZeroNumber
      | .float _ => fault line .nonZeroNumber
      | .bool _ => constantOf line comment (.named "bool")
      | _ => return .synonym value

-- What a statement of a module adds to it.
inductive Item
  | synonym (synonym : Alias)
  | constant (constant : Constant)
  | typeVariable (declared : TypeVariable)
  | classDef (line : Int32) (stubClass : StubClass)
  | definition (definition : Definition)

namespace Item

def synonym? : Item → Option Alias
  | .synonym a => some a
  | _ => none

def constant? : Item → Option Constant
  | .constant c => some c
  | _ => none

def typeVariable? : Item → Option TypeVariable
  | .typeVariable v => some v
  | _ => none

def class? : Item → Option StubClass
  | .classDef _ c => some c
  | _ => none

def classLine? : Item → Option (Text × Int32)
  | .classDef line c => some (c.name, line)
  | _ => none

def definition? : Item → Option Definition
  | .definition d => some d
  | _ => none

end Item

-- The constants and definitions of a class so far.
structure ClassScan where
  constants : List Constant
  definitions : List Definition

-- The last constant of a name.
def lastConstant? (constants : List Constant) (name : Text) : Option Constant :=
  (constants.filter (·.name == name)).getLast?

-- In a class, `y = x` gives y the type of the constant x declared before it.
def copiedType? (constants : List Constant) : Expr → Option Ty
  | .name id => (lastConstant? constants id).map (·.type)
  | _ => none

def classStatement (classLine : Int32) (scan : ClassScan) : Stmt → Build ClassScan
  | .definition place d => do
      let definition ← Build.definition place.line d
      return { scan with definitions := scan.definitions ++ [definition] }
  | .assign place target assigned => do
      match ← declared place.line assigned with
      | .constant type => return { scan with constants := scan.constants ++ [⟨target, type⟩] }
      | .synonym value =>
          match copiedType? scan.constants value with
          | some type => return { scan with constants := scan.constants ++ [⟨target, type⟩] }
          | none => fault classLine (.classAlias target)
  | statement => fault statement.place.line (.inClassBody statement.kind)

mutual

-- One statement of a class body. A conditional adds what its live branch adds.
def classMember (liveness : Liveness) (classLine : Int32) (path : Path) (scan : ClassScan) :
    Stmt → Build ClassScan
  | .conditional _ _ _ thenBody elseBody =>
      if liveness.selects path then classBody liveness classLine path.thenBody 0 scan thenBody
      else classBody liveness classLine path.elseBody 0 scan elseBody
  | statement => classStatement classLine scan statement

-- The statements of a class body, from this position on.
def classBody (liveness : Liveness) (classLine : Int32) (path : Path) (position : Nat)
    (scan : ClassScan) : List Stmt → Build ClassScan
  | [] => return scan
  | statement :: rest => do
      let scan ← classMember liveness classLine (position :: path) scan statement
      classBody liveness classLine path (position + 1) scan rest

end

-- The parents and the metaclass of a class so far.
structure Heritage where
  parents : List Ty
  metaclass : Option Ty

-- A metaclass comes last. The type nothing is no parent.
def classArgument (line : Int32) (heritage : Heritage) (arg : ClassArg) : Build Heritage := do
  if arg.keyword.any (· != ("metaclass" : Text)) then fault line .classKeyword
  if heritage.metaclass.isSome then fault line .metaclassNotLast
  let type ← typeAt line arg.value
  if arg.keyword.isSome then return { heritage with metaclass := some type }
  if type.kind = .nothing then return heritage
  return { heritage with parents := heritage.parents ++ [type] }

-- Merging neither needs nor changes what is known while building.
def merged {α : Type} : Except Fault α → Build α
  | .ok a => return a
  | .error e => throw e

-- A class with the contents that its body builds.
def classOf (line : Int32) (name : Text) (args : List ClassArg) (contents : Build ClassScan) :
    Build StubClass := do
  let heritage ← args.foldlM (classArgument line) ⟨[], none⟩
  let scan ← contents
  let members ← merged (Merge.classMembers (some line.toInt) scan.definitions)
  return {
    name := name
    parents := heritage.parents
    metaclass := heritage.metaclass
    constants := scan.constants ++ members.filterMap Merge.Member.property?
    methods := members.filterMap Merge.Member.method? }

def moduleAssignment (line : Int32) (target : Text) (assigned : Assigned) : Build Item := do
  match ← declared line assigned with
  | .constant type => return .constant ⟨target, type⟩
  | .synonym value => return .synonym ⟨target, ← typeAt line value⟩

-- A name imported from the typing module is known, but it is no alias.
def importedMember (module : Text) (imported : ImportedName) : Build (Option Item) := do
  let name := imported.asName.getD imported.name
  let target := module ++ '.' :: imported.name
  addImport name target
  if module = "typing" then return none
  return some (.synonym ⟨name, .named target⟩)

def typeVariable (line : Int32) (name declaredName : Text) (constraints : List Expr) :
    Build Item := do
  if declaredName ≠ name then fault line (.typeVarName declaredName name)
  return .typeVariable ⟨name, ← constraints.mapM (typeAt line)⟩

mutual

-- The items of one statement of a module. Those of a conditional are those of its live branch.
def moduleStatement (liveness : Liveness) (path : Path) : Stmt → Build (List Item)
  | .conditional _ _ _ thenBody elseBody =>
      if liveness.selects path then moduleBody liveness path.thenBody 0 thenBody
      else moduleBody liveness path.elseBody 0 elseBody
  | .definition place d => do return [.definition (← Build.definition place.line d)]
  | .classDef place name args body => do
      let contents := classBody liveness place.line path.classBody 0 ⟨[], []⟩ body
      return [.classDef place.line (← classOf place.line name args contents)]
  | .assign place target assigned => do
      return [← moduleAssignment place.line target assigned]
  | .typeVar place name declaredName constraints _ => do
      return [← typeVariable place.line name declaredName constraints]
  | .importModules place modules => do
      if modules.any (·.asName.isSome) then fault place.line .renamedModule
      return []
  | .importFrom _ module imported => do
      return (← imported.mapM (importedMember module)).filterMap id
  | .importAll _ _ => return []

-- The items of a body, from this position on.
def moduleBody (liveness : Liveness) (path : Path) (position : Nat) :
    List Stmt → Build (List Item)
  | [] => return []
  | statement :: rest => do
      let items ← moduleStatement liveness (position :: path) statement
      return items ++ (← moduleBody liveness path (position + 1) rest)

end

-- A module and the lines of its class statements, the first of a name in front.
structure Built where
  module : StubModule
  classLines : List (Text × Int32)

-- The module that a tree declares. Record classes come after the classes of the stub.
def moduleOf (name : Text) (liveness : Liveness) (body : List Stmt) : Build Built := do
  let items ← moduleBody liveness [] 0 body
  let functions ← merged (Merge.moduleFunctions (items.filterMap Item.definition?))
  let state ← get
  return {
    module := {
      name := name
      aliases := items.filterMap Item.synonym?
      constants := items.filterMap Item.constant?
      typeVariables := items.filterMap Item.typeVariable?
      classes := items.filterMap Item.class? ++ state.records.classes
      functions := functions }
    classLines := items.filterMap Item.classLine? }

end TypeStub.Declare
