import TypeStub.Module

-- The names of a module, qualified by the module's own name.
namespace TypeStub.Qualify

def qualified (module name : Text) : Text := module ++ '.' :: name

-- A type's name changes when it is that of a class of the module.
def className (module : Text) (classes : List Text) (name : Text) : Text :=
  if classes.contains name then qualified module name else name

def parameter (f : Text → Text) (p : Parameter) : Parameter := { p with type := p.type.mapNames f }

def signature (f : Text → Text) (s : Signature) : Signature :=
  { params := s.params.map (parameter f)
    starArgs := s.starArgs.map (parameter f)
    starStarArgs := s.starStarArgs.map (parameter f)
    returns := s.returns.mapNames f
    exceptions := s.exceptions.map (Ty.mapNames f)
    mutators := s.mutators.map fun m => { m with type := m.type.mapNames f } }

def function (f : Text → Text) (fn : StubFunction) : StubFunction :=
  { fn with signatures := fn.signatures.map (signature f) }

def constant (f : Text → Text) (c : Constant) : Constant := { c with type := c.type.mapNames f }

def stubClass (f : Text → Text) (c : StubClass) : StubClass :=
  { c with
    parents := c.parents.map (Ty.mapNames f)
    metaclass := c.metaclass.map (Ty.mapNames f)
    constants := c.constants.map (constant f)
    methods := c.methods.map (function f) }

-- Every declaration under its qualified name, and every mention of a class likewise. Members,
-- parameters and type parameters keep their names.
def module (name : Text) (m : StubModule) : StubModule :=
  let f := className name (m.classes.map (·.name))
  let top := qualified name
  { m with
    aliases := m.aliases.map fun a => ⟨top a.name, a.target.mapNames f⟩
    constants := m.constants.map fun c => ⟨top c.name, c.type.mapNames f⟩
    typeVariables := m.typeVariables.map fun v => ⟨top v.name, v.constraints.map (Ty.mapNames f)⟩
    classes := m.classes.map fun c => { stubClass f c with name := top c.name }
    functions := m.functions.map fun fn => { function f fn with name := top fn.name } }

end TypeStub.Qualify
