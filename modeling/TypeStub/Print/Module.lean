import TypeStub.Module
import TypeStub.Print.Type

namespace TypeStub.Print

def indentation : Text := "    "

-- A parameter of type object goes without its type.
def parameter (home : Text) (p : Parameter) : Piece :=
  let typed : Piece := if p.type.isNamed "object" then p.name else p.name ++ ": " ++ type home p.type
  if p.isOptional then typed ++ " = ..." else typed

-- `*args` or `**kwargs`. The type written is the last parameter of the stored container, but the
-- whole container counts as used.
def starParameter (home stars : Text) (p : Parameter) : Piece :=
  match p.type with
  | .generic _ params =>
      match params.getLast? with
      | some element =>
          let typed : Piece := stars ++ p.name ++ ": " ++ (type home element).silent
          typed.relyingOn (type home p.type).uses
      | none => (Piece.mk (stars ++ p.name) []).relyingOn (type home p.type).uses
  | _ => stars ++ p.name

-- The parameters in order, with the star before the first keyword-only one.
def parameters (home : Text) (s : Signature) : List Piece :=
  let star := s.starArgs.map (starParameter home "*")
  let plain := s.params.takeWhile (!·.keywordOnly)
  let others := s.params.drop plain.length
  let marker := if others.isEmpty then star.toList else [star.getD "*"]
  plain.map (parameter home) ++ marker ++ others.map (parameter home) ++
    (s.starStarArgs.map (starParameter home "**")).toList

def mutator (home : Text) (m : Mutator) : Piece := (m.name ++ " := " ++ type home m.type : Piece).silent

def raised (home : Text) (exception : Ty) : Piece := "raise " ++ type home exception ++ "()"

-- The decorator line that a kind needs. `__new__` is static anyway.
def decoratorLine (name : Text) (kind : FunctionKind) : Text :=
  match kind with
  | .staticMethod => if name = "__new__" then "" else "@staticmethod\n"
  | .classMethod => "@classmethod\n"
  | .method => ""

def signature (home name : Text) (kind : FunctionKind) (s : Signature) : Piece :=
  let head : Piece :=
    decoratorLine name kind ++ "def " ++ name ++ "(" ++ .joinWith ", " (parameters home s) ++
      ") -> " ++ type home s.returns
  let body := s.mutators.map (mutator home) ++ s.exceptions.map (raised home)
  match body with
  | [] => head ++ ": ..."
  | _ =>
      let lines := body.map fun line => ("\n" ++ indentation ++ line : Piece)
      head ++ ":" ++ .joinWith [] lines

def function (home : Text) (f : StubFunction) : Piece :=
  if f.isExternal then "def " ++ f.name ++ " PYTHONCODE"
  else .joinWith "\n" (f.signatures.map (signature home f.name f.kind))

def constant (home : Text) (c : Constant) : Piece := c.name ++ " = ...  # type: " ++ type home c.type

-- `from module import member`, for a local name that may be qualified.
def importLine (home localName module member : Text) : Text :=
  let bare := (Text.after? (home ++ ".") localName).getD localName
  let asName : Text := if member = bare then "" else " as " ++ bare
  "from " ++ module ++ " import " ++ member ++ asName

-- An alias of a dotted name is an import.
def aliasLine (home : Text) (a : Alias) : Piece :=
  match a.target with
  | .named target =>
      match Text.splitLastDot target with
      | some (module, member) => importLine home a.name module member
      | none => a.name ++ " = " ++ type home a.target
  | _ => a.name ++ " = " ++ type home a.target

def typeVariable (home : Text) (v : TypeVariable) : Piece :=
  let constraints := v.constraints.map fun t => (", " ++ type home t : Piece)
  (v.name ++ " = TypeVar('" ++ v.name ++ "'" ++ .joinWith [] constraints ++ ")" : Piece).relyingOn
    [.typing "TypeVar"]

-- Each line of a member, indented.
def indented (member : Piece) : Piece :=
  ⟨(Text.splitLines member.text).flatMap fun line => ("\n" ++ indentation ++ line : Text),
    member.uses⟩

def classBases (home : Text) (c : StubClass) : List Piece :=
  c.parents.map (type home) ++
    (c.metaclass.map fun t => ("metaclass=" ++ type home t : Piece)).toList

def stubClass (home : Text) (c : StubClass) : Piece :=
  let bases := classBases home c
  let heritage : Piece := if bases.isEmpty then "" else "(" ++ .joinWith ", " bases ++ ")"
  let constants := c.constants.map fun k => ("\n" ++ indentation ++ constant home k : Piece)
  let members := constants ++ c.methods.map fun m => indented (function home m)
  let body : Piece :=
    if c.constants.isEmpty ∧ c.methods.isEmpty then "\n" ++ indentation ++ "pass"
    else .joinWith [] members
  "class " ++ c.name ++ heritage ++ ":" ++ body ++ "\n"

-- The sections of a module after its imports, each a list of declarations.
def sections (m : StubModule) : List (List Piece) :=
  [m.aliases.map (aliasLine m.name), m.constants.map (constant m.name),
   m.typeVariables.map (typeVariable m.name), m.classes.map (stubClass m.name),
   m.functions.map (function m.name)]

def typingName? : Use → Option Text
  | .typing name => some name
  | .module _ => none

def moduleName? : Use → Option Text
  | .module name => some name
  | .typing _ => none

-- The import lines for the names relied on, each list sorted and without repeats.
def imports (uses : List Use) : List Text :=
  let modules := (sortedNames (uses.filterMap moduleName?)).map fun name => ("import " ++ name : Text)
  match sortedNames (uses.filterMap typingName?) with
  | [] => modules
  | names => modules ++ [("from typing import " ++ Text.joinWith ", " names : Text)]

-- The canonical text of a module: the imports, then every section that has declarations, with an
-- empty line between.
def module (m : StubModule) : Text :=
  let sections := sections m
  let imports := Text.joinWith "\n" (imports (sections.flatten.flatMap (·.uses)))
  let texts := (sections.filter (!·.isEmpty)).map fun items =>
    Text.joinWith "\n" (items.map (·.text))
  Text.joinWith "\n\n" (if imports.isEmpty then texts else imports :: texts)

end TypeStub.Print
