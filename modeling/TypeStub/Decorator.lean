import TypeStub.Text

namespace TypeStub

-- What a decorator makes of a definition. A setter or deleter names the property it belongs to.
inductive DecoratorRole
  | undecorated
  | property
  | setter (target : Text)
  | deleter (target : Text)
  | classMethod
  | staticMethod
  | overload
  | abstractMethod
  | unrecognized
  deriving DecidableEq, Repr

structure Decorator where
  role : DecoratorRole
  text : Text
  deriving DecidableEq, Repr

namespace Decorator

def none : Decorator := ⟨.undecorated, []⟩

-- `name.setter` and `name.deleter` for any dotted name.
def accessorRole (text : Text) : DecoratorRole :=
  match Text.splitLastDot text with
  | some (target, word) =>
      if word = "setter" then .setter target
      else if word = "deleter" then .deleter target
      else .unrecognized
  | Option.none => .unrecognized

def roleOf (text : Text) : DecoratorRole :=
  if text = "property" then .property
  else if text = "classmethod" then .classMethod
  else if text = "staticmethod" then .staticMethod
  else if text = "overload" ∨ text = "typing.overload" then .overload
  else if text = "abstractmethod" ∨ text = "abc.abstractmethod" then .abstractMethod
  else accessorRole text

def ofText (text : Text) : Decorator := ⟨roleOf text, text⟩

-- The name in `name.setter` or `name.deleter`.
def target (decorator : Decorator) : Text :=
  match decorator.role with
  | .setter target | .deleter target => target
  | _ => []

def isProperty (decorator : Decorator) : Bool :=
  match decorator.role with
  | .property | .setter _ | .deleter _ => true
  | _ => false

end Decorator

end TypeStub
