import TypeStub.Build

-- Definitions of one name become one function or, with property decorators, one constant.
namespace TypeStub.Merge

-- The definitions by name, in the order in which the names first occur.
def groups (defs : List Definition) : List (List Definition) :=
  (defs.map (·.name)).eraseDups.map fun name => defs.filter (·.name == name)

def groupName (group : List Definition) : Text := (group.head?.map (·.name)).getD []

def positional (signature : Signature) : List Parameter :=
  signature.params.filter (!·.keywordOnly)

-- A getter and a deleter take the object, a setter the object and a value. Setters and deleters
-- have to name the property that they define.
def fitsProperty (d : Definition) (signature : Signature) : Bool :=
  let count := (positional signature).length
  match d.decorator.role with
  | .property => count == 1
  | .setter target => target == d.name && count == 2
  | .deleter target => target == d.name && count == 1
  | _ => false

def isInformative (type : Ty) : Bool := type.kind != .anything && !type.isNamed "object"

-- The type that an accessor tells of its property: what a getter returns or a setter takes.
def accessorType (d : Definition) (signature : Signature) : Option Ty :=
  match d.decorator.role with
  | .property => if isInformative signature.returns then some signature.returns else none
  | .setter _ =>
      match signature.params with
      | _ :: value :: _ => if isInformative value.type then some value.type else none
      | _ => none
  | _ => none

def unhandled (line : Option Int) (d : Definition) : Fault :=
  ⟨.unhandledDecorator d.decorator.text, line⟩

def accessor (line : Option Int) (d : Definition) : Except Fault (Option Ty) :=
  match d.signature? with
  | none => .error (unhandled line d)
  | some signature =>
      if fitsProperty d signature then .ok (accessorType d signature)
      else .error (unhandled line d)

-- The last accessor that tells a type decides.
def property (line : Option Int) (group : List Definition) : Except Fault Constant := do
  let told ← group.mapM (accessor line)
  return ⟨groupName group, ((told.filterMap id).getLast?).getD .anything⟩

def kindOf (d : Definition) : FunctionKind :=
  if d.name = "__new__" then .staticMethod
  else match d.decorator.role with
    | .classMethod => .classMethod
    | .staticMethod => .staticMethod
    | _ => .method

-- The kind of a group is that of its first definition, and the others have to agree.
def groupKind (group : List Definition) : FunctionKind := ((group.head?).map kindOf).getD .method

def overloads (line : Option Int) (group : List Definition) : Except Fault StubFunction :=
  let name := groupName group
  let kind := groupKind group
  if group.all (kindOf · == kind) then
    .ok ⟨name, group.filterMap (·.signature?), kind, false⟩
  else .error ⟨.kindsDisagree name, line⟩

-- A function is one external definition or any number of signatures.
def function (line : Option Int) (group : List Definition) : Except Fault StubFunction :=
  let name := groupName group
  match (group.filter Definition.isExternal).length with
  | 0 => overloads line group
  | 1 =>
      if group.length = 1 then .ok ⟨name, [], .method, true⟩
      else .error ⟨.mixedExternals name, line⟩
  | _ => .error ⟨.severalExternals name, line⟩

def checkRecognized (line : Option Int) (group : List Definition) : Except Fault Unit :=
  match group.find? (·.decorator.role == .unrecognized) with
  | some d => .error (unhandled line d)
  | none => .ok ()

inductive Member
  | method (function : StubFunction)
  | property (constant : Constant)

def Member.method? : Member → Option StubFunction
  | .method function => some function
  | .property _ => none

def Member.property? : Member → Option Constant
  | .property constant => some constant
  | .method _ => none

def hasProperty (group : List Definition) : Bool := group.any (·.decorator.isProperty)

def member (line : Option Int) (group : List Definition) : Except Fault Member := do
  checkRecognized line group
  if hasProperty group then
    if group.all (·.decorator.isProperty) then return .property (← property line group)
    else throw ⟨.incompatibleSignatures (groupName group), line⟩
  else return .method (← function line group)

-- The members that the definitions of a class make.
def classMembers (line : Option Int) (defs : List Definition) : Except Fault (List Member) :=
  (groups defs).mapM (member line)

def moduleFunction (group : List Definition) : Except Fault StubFunction := do
  checkRecognized none group
  function none group

-- The functions of a module. It has no properties, but that is found out last.
def moduleFunctions (defs : List Definition) : Except Fault (List StubFunction) := do
  let functions ← ((groups defs).filter (!hasProperty ·)).mapM moduleFunction
  match (groups defs).filter hasProperty with
  | [] => return functions
  | properties => throw ⟨.moduleProperties (properties.map groupName), none⟩

end TypeStub.Merge
