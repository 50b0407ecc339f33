import TypeStub.Grammar.Statement
import TypeStub.Proofs.Grammar.Alongside

-- Within a line, what each parser of the grammar makes does not depend on places.
namespace TypeStub.Grammar

open TypeStub.Parser

section

variable {α : Type} {ρ : Int32 → Int32 → Prop} {pre : List Token → Prop} {p : Parser α} {t : Token}
  {kind : TokenKind}

end

variable {ρ : Int32 → Int32 → Prop} {pre : List Token → Prop} {type condition : Parser Expr}

end TypeStub.Grammar
