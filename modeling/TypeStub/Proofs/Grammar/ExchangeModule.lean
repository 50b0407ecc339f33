import TypeStub.Proofs.Grammar.ExchangeReads

-- From one exchanged statement to a whole stub.
namespace TypeStub.Grammar

open TypeStub.Parser

section

variable {ρ : Int32 → Int32 → Prop} {S T : List Token → Prop} {n m : Int32} {c : Blocks}
  {heads : List Bool} {type condition : Parser Expr} {A C : Expr → Prop}
  {block : Scope → Parser (List Stmt)} {B : Scope → Stmt → Prop} {scope : Scope}
  {ts us : List Token}

end

end TypeStub.Grammar
