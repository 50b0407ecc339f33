import TypeStub.Ty

namespace TypeStub

inductive FunctionKind
  | method | classMethod | staticMethod
  deriving DecidableEq, Repr

namespace FunctionKind

def all : List FunctionKind := [.method, .classMethod, .staticMethod]

def display : FunctionKind → Text
  | method => "method"
  | classMethod => "classmethod"
  | staticMethod => "staticmethod"

end FunctionKind

-- An optional parameter has a default; a keyword-only one stands after a star.
structure Parameter where
  name : Text
  type : Ty
  isOptional : Bool
  keywordOnly : Bool

-- The type that an argument has after a call.
structure Mutator where
  name : Text
  type : Ty

structure Signature where
  params : List Parameter
  starArgs : Option Parameter
  starStarArgs : Option Parameter
  returns : Ty
  exceptions : List Ty
  mutators : List Mutator

-- A function with its overloads. An external one has native code in their place.
structure StubFunction where
  name : Text
  signatures : List Signature
  kind : FunctionKind
  isExternal : Bool

structure Constant where
  name : Text
  type : Ty

structure Alias where
  name : Text
  target : Ty

structure TypeVariable where
  name : Text
  constraints : List Ty

structure StubClass where
  name : Text
  parents : List Ty
  metaclass : Option Ty
  constants : List Constant
  methods : List StubFunction

-- What a stub declares, each list in the order of declaration.
structure StubModule where
  name : Text
  aliases : List Alias
  constants : List Constant
  typeVariables : List TypeVariable
  classes : List StubClass
  functions : List StubFunction

namespace StubModule

def findClass? (module : StubModule) (name : Text) : Option StubClass :=
  module.classes.find? (·.name == name)

def findFunction? (module : StubModule) (name : Text) : Option StubFunction :=
  module.functions.find? (·.name == name)

end StubModule

end TypeStub
