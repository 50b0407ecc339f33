import TypeStub.Proofs.Grammar.ConstantText
import TypeStub.Proofs.Grammar.TwinLines
import TypeStub.Proofs.Load.Alike
import TypeStub.Proofs.Load.Outcome

-- The spellings of a name that gets a type and no value load alike in place of one another.
namespace TypeStub.Load

open TypeStub.Parser TypeStub.Grammar

section

variable {row count others : Nat} {below : List Text} {inner : List Nat}

variable {above lines : List Text} {pad name type source : Text} {words : List Spelling}
  {earlier : List Token} {indents : List Nat} {marks : List TokenKind}

end

end TypeStub.Load
