import TypeStub.Fault
import TypeStub.Names

-- The pass before building: it decides the conditionals that live code reaches, and it notes the
-- classes and type variables that live code declares, so that a use may come first.
namespace TypeStub

-- A node of a tree: the positions that lead to it, the last one in front.
abbrev Path := List Nat

namespace Path

def thenBody (path : Path) : Path := 0 :: path

def elseBody (path : Path) : Path := 1 :: path

def classBody (path : Path) : Path := 0 :: path

end Path

-- The conditionals decided so far, by their nodes.
abbrev Liveness := List (Path × Bool)

-- A conditional that was not decided counts as false.
def Liveness.selects (liveness : Liveness) (path : Path) : Bool := (liveness.lookup path).getD false

structure Prescan where
  names : Names
  liveness : Liveness

namespace Prescan

mutual

def statement (target : Target) (path : Path) (scan : Prescan) : Stmt → Except Fault Prescan
  | .conditional place _ condition thenBody elseBody =>
      match Condition.evaluate target condition with
      | .error e => .error (.at place.line (.condition e))
      | .ok true =>
          body target path.thenBody 0
            { scan with liveness := (path, true) :: scan.liveness } thenBody
      | .ok false =>
          body target path.elseBody 0
            { scan with liveness := (path, false) :: scan.liveness } elseBody
  | .classDef _ name _ members =>
      body target path.classBody 0 { scan with names := scan.names.addClass name } members
  | .typeVar _ name _ _ _ => .ok { scan with names := scan.names.addTypeVar name }
  | _ => .ok scan

-- The statements of a body, from this position on.
def body (target : Target) (path : Path) (position : Nat) (scan : Prescan) :
    List Stmt → Except Fault Prescan
  | [] => .ok scan
  | first :: rest =>
      match statement target (position :: path) scan first with
      | .error fault => .error fault
      | .ok scan => body target path (position + 1) scan rest

end

-- The names and the decisions of a whole tree.
def tree (useBuiltins : Bool) (target : Target) (statements : List Stmt) : Except Fault Prescan :=
  body target [] 0 ⟨Names.empty useBuiltins, []⟩ statements

end Prescan

end TypeStub
