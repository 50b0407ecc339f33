import TypeStub.Text

namespace TypeStub

inductive TyKind
  | named | anything | nothing | parameter | generic | tuple | callable | union
  deriving DecidableEq, Repr

namespace TyKind

def all : List TyKind :=
  [.named, .anything, .nothing, .parameter, .generic, .tuple, .callable, .union]

def display : TyKind → Text
  | named => "NamedType"
  | anything => "AnythingType"
  | nothing => "NothingType"
  | parameter => "TypeParameter"
  | generic => "GenericType"
  | tuple => "TupleType"
  | callable => "CallableType"
  | union => "UnionType"

end TyKind

-- A type. A generic type over `tuple` repeats its one parameter; a tuple type lists its elements.
inductive Ty
  | named (name : Text)
  | anything
  | nothing
  | parameter (name : Text)
  | generic (base : Ty) (params : List Ty)
  | tuple (base : Ty) (params : List Ty)
  | callable (base : Ty) (args : List Ty) (result : Ty)
  | union (members : List Ty)
  deriving Repr, Inhabited

namespace Ty

def kind : Ty → TyKind
  | named _ => .named
  | anything => .anything
  | nothing => .nothing
  | parameter _ => .parameter
  | generic _ _ => .generic
  | tuple _ _ => .tuple
  | callable _ _ _ => .callable
  | union _ => .union

def isNamed (type : Ty) (name : Text) : Bool :=
  match type with
  | named n => n == name
  | _ => false

mutual

-- Whether two types are the same tree.
def same : Ty → Ty → Bool
  | named a, named b => a == b
  | anything, anything => true
  | nothing, nothing => true
  | parameter a, parameter b => a == b
  | generic a as, generic b bs => same a b && sameAll as bs
  | tuple a as, tuple b bs => same a b && sameAll as bs
  | callable a as r, callable b bs s => same a b && sameAll as bs && same r s
  | union as, union bs => sameAll as bs
  | _, _ => false

def sameAll : List Ty → List Ty → Bool
  | [], [] => true
  | a :: as, b :: bs => same a b && sameAll as bs
  | _, _ => false

end

mutual

-- The members that a type brings to a union: those of a union in it, and none for nothing.
def leaves : Ty → List Ty
  | union members => leavesAll members
  | nothing => []
  | type => [type]

def leavesAll : List Ty → List Ty
  | [] => []
  | type :: rest => leaves type ++ leavesAll rest

end

-- The first of each among equals, in order.
def distinct (types : List Ty) : List Ty :=
  types.foldl (fun seen type => if seen.any (same · type) then seen else seen ++ [type]) []

-- The union of several types. One distinct member stands for itself, and none is nothing.
def unionOf (types : List Ty) : Ty :=
  match distinct (leavesAll types) with
  | [] => nothing
  | [single] => single
  | members => union members

mutual

-- The type with its class names changed.
def mapNames (f : Text → Text) : Ty → Ty
  | named name => named (f name)
  | anything => anything
  | nothing => nothing
  | parameter name => parameter name
  | generic base params => generic (mapNames f base) (mapNamesAll f params)
  | tuple base params => tuple (mapNames f base) (mapNamesAll f params)
  | callable base args result =>
      callable (mapNames f base) (mapNamesAll f args) (mapNames f result)
  | union members => union (mapNamesAll f members)

def mapNamesAll (f : Text → Text) : List Ty → List Ty
  | [] => []
  | type :: rest => mapNames f type :: mapNamesAll f rest

end

end Ty

end TypeStub
