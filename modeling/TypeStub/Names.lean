import TypeStub.Ty

namespace TypeStub

-- What a built-in name stands for.
inductive Builtin
  | anything
  | named (name : Text)
  deriving DecidableEq, Repr

namespace Builtin

-- The typing names of the built-in containers.
def containers : List (Text × Text) :=
  [("List", "list"), ("Dict", "dict"), ("Tuple", "tuple"), ("Set", "set"),
   ("FrozenSet", "frozenset"), ("Type", "type"), ("Generator", "generator")]

-- The names that the typing module gives without a container behind them.
def typingNames : List Text := List.map String.toList
  ["AbstractSet", "AnyStr", "AsyncIterable", "AsyncIterator", "Awaitable", "BinaryIO",
   "ByteString", "Callable", "ClassVar", "Container", "ContextManager", "Coroutine", "Counter",
   "DefaultDict", "Deque", "Generic", "Hashable", "IO", "ItemsView", "Iterable", "Iterator",
   "KeysView", "Mapping", "MappingView", "Match", "MutableMapping", "MutableSequence",
   "MutableSet", "NamedTuple", "NoReturn", "Optional", "Pattern", "Reversible", "Sequence",
   "Sized", "SupportsAbs", "SupportsBytes", "SupportsComplex", "SupportsFloat", "SupportsInt",
   "SupportsRound", "Text", "TextIO", "TypeVar", "Union", "ValuesView"]

def ofName? (name : Text) : Option Builtin :=
  if name = "Any" then some .anything
  else match containers.lookup name with
    | some container => some (.named container)
    | none => if name ∈ typingNames then some (.named ("typing." ++ name)) else none

-- A built-in by its name in the typing module.
def ofTyping? (name : Text) : Option Builtin := (Text.after? "typing." name).bind ofName?

def display : Builtin → Text
  | anything => "<any>"
  | named name => name

def type : Builtin → Ty
  | anything => .anything
  | named name => .named name

end Builtin

-- The names that a stub declares or imports. The typing module itself goes without the built-ins.
structure Names where
  useBuiltins : Bool
  classes : List Text
  typeVars : List Text
  imports : List (Text × Text)

namespace Names

def empty (useBuiltins : Bool) : Names := ⟨useBuiltins, [], [], []⟩

def addClass (names : Names) (name : Text) : Names := { names with classes := name :: names.classes }

def addTypeVar (names : Names) (name : Text) : Names :=
  { names with typeVars := name :: names.typeVars }

-- A later import hides an earlier one of the same local name.
def addImport (names : Names) (name target : Text) : Names :=
  { names with imports := (name, target) :: names.imports }

def isClass (names : Names) (name : Text) : Bool := names.classes.contains name

def isTypeVar (names : Names) (name : Text) : Bool := names.typeVars.contains name

def builtin? (names : Names) (name : Text) : Option Builtin :=
  if names.useBuiltins then (Builtin.ofName? name).or (Builtin.ofTyping? name) else none

-- An imported name, which may be that of a built-in.
def imported? (names : Names) (name : Text) : Option Ty :=
  (names.imports.lookup name).map fun target =>
    if names.useBuiltins then ((Builtin.ofTyping? target).map Builtin.type).getD (.named target)
    else .named target

-- What a name stands for: a fixed name, a declaration of the stub, a built-in, an import, or a
-- name from elsewhere.
def resolve (names : Names) (name : Text) : Ty :=
  if name = "nothing" then .nothing
  else if name = "None" ∨ name = "NoneType" then .named "NoneType"
  else if names.isTypeVar name then .parameter name
  else if names.isClass name then .named name
  else match names.builtin? name with
    | some builtin => builtin.type
    | none => (names.imported? name).getD (.named name)

end Names

end TypeStub
