import TypeStub.Names
import TypeStub.Print.Piece

namespace TypeStub.Print

-- A container over parameters is spelled as the typing module spells it.
def capitalized? (name : Text) : Option Text :=
  (Builtin.containers.find? (·.2 == name)).map (·.1)

-- A name from the typing module goes bare. A dotted name relies on its module, unless that is the
-- module printed.
def nameType (home name : Text) : Piece :=
  if name = "NoneType" then "None"
  else match Text.after? "typing." name with
    | some bare => .ofTyping bare
    | none =>
        match Text.splitLastDot name with
        | some (module, _) => if module = home then name else ⟨name, [.module module]⟩
        | none => name

-- What stands between the brackets of a generic type. A tuple repeats its one parameter.
def genericParams (base : Ty) (params : List Piece) : Piece :=
  match params with
  | [single] => if base.isNamed "tuple" then single ++ ", ..." else single
  | _ => .joinWith ", " params

-- A union with None is optional; around any number but one of other members it names the union.
def unionType (hasNone : Bool) (others : List Piece) : Piece :=
  let members := Piece.joinWith ", " others
  if hasNone then
    match others with
    | [single] => .ofTyping "Optional" ++ "[" ++ single ++ "]"
    | _ => .ofTyping "Optional" ++ "[" ++ Piece.ofTyping "Union" ++ "[" ++ members ++ "]]"
  else .ofTyping "Union" ++ "[" ++ members ++ "]"

-- The base of a parametrized type, given its own text.
def baseType (base : Ty) (plain : Piece) : Piece :=
  match base with
  | .named name => ((capitalized? name).map Piece.ofTyping).getD plain
  | _ => plain

mutual

-- The text of a type in a module.
def type (home : Text) : Ty → Piece
  | .named name => nameType home name
  | .anything => .ofTyping "Any"
  | .nothing => "nothing"
  | .parameter name => name
  | .generic base params =>
      baseType base (type home base) ++ "[" ++ genericParams base (types home params) ++ "]"
  | .tuple base params => baseType base (type home base) ++ "[" ++ .joinWith ", " (types home params) ++ "]"
  | .callable base args result =>
      baseType base (type home base) ++ "[[" ++ .joinWith ", " (types home args) ++ "], " ++
        type home result ++ "]"
  | .union members => unionType (members.any (·.isNamed "NoneType")) (unionMembers home members)

def types (home : Text) : List Ty → List Piece
  | [] => []
  | t :: rest => type home t :: types home rest

-- The members of a union other than None.
def unionMembers (home : Text) : List Ty → List Piece
  | [] => []
  | t :: rest =>
      if t.isNamed "NoneType" then unionMembers home rest
      else type home t :: unionMembers home rest

end

-- A type by itself, in no module.
def typeText (t : Ty) : Text := (type [] t).text

end TypeStub.Print
