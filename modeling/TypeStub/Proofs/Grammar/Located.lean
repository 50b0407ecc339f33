import TypeStub.Proofs.Grammar.Parsed
import TypeStub.Proofs.Token.Kept

namespace TypeStub

section

variable {lines : List Text} {e : SyntaxError} {t : Token}

end

end TypeStub
