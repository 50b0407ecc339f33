import TypeStub.Module
import TypeStub.Syntax
import TypeStub.Token

-- The kinds of each sort by number, counted from zero. A number past the last kind is shown by a
-- fixed text.
namespace TypeStub.Numbering

def shown {α : Type} (all : List α) (display : α → Text) (unknown : Text) (number : Int) : Text :=
  if number < 0 then unknown else (all[number.toNat]?.map display).getD unknown

def tokenKind (number : Int) : Text := shown TokenKind.all TokenKind.display "Unknown" number

def nodeKind (number : Int) : Text := shown NodeKind.all NodeKind.display "Unknown" number

def compareOp (number : Int) : Text := shown CompareOp.all CompareOp.display "?" number

def typeKind (number : Int) : Text := shown TyKind.all TyKind.display "Unknown" number

-- A function of an unknown kind counts as a method.
def functionKind (number : Int) : Text :=
  shown FunctionKind.all FunctionKind.display FunctionKind.method.display number

end TypeStub.Numbering
