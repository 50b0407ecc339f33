import TypeStub.Proofs.Grammar.Exchange

-- Each statement of the grammar, on two sides that are alike but for exchanged statements.
namespace TypeStub.Grammar

open TypeStub.Parser

section

variable {ρ : Int32 → Int32 → Prop} {S T : List Token → Prop} {n m : Int32} {c : Blocks}
  {heads : List Bool} {type condition : Parser Expr} {ts us : List Token}

def Branch.Alike (ρ : Int32 → Int32 → Prop) (b b' : Branch) : Prop :=
  ρ b.place.line b'.place.line ∧ b.condition = b'.condition ∧ Stmt.AllAlike ρ b.body b'.body

end

end TypeStub.Grammar
