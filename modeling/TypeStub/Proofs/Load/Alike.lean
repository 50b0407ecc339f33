import TypeStub.Proofs.Build.Alike
import TypeStub.Proofs.Grammar.ExchangeModule
import TypeStub.Proofs.Load.Named

-- Sources with exchanged statements load alike.
namespace TypeStub

namespace Unique

variable {ρ : Int32 → Int32 → Prop} {lines others : List (Text × Int32)}

end Unique

namespace Load

open TypeStub.Parser TypeStub.Grammar

section

variable {ρ : Int32 → Int32 → Prop} {body other : List Stmt}

-- The same module but for a digest in its name, or the same message. The lines of the message are
-- related, unless types nest too deep on two given lines.
inductive Alike (ρ : Int32 → Int32 → Prop) (n m : Int32) (request : Request) :
    Except Diagnostic StubModule → Except Diagnostic StubModule → Prop
  | ok {a b : StubModule} : b = { a with name := b.name } → (request.name.isSome → b = a) →
      Alike ρ n m request (.ok a) (.ok b)
  | error {d e : Diagnostic} : d.message = e.message → (Lines ρ d.line e.line ∨
      d.message = SyntaxError.nestingTooDeep.message ∧ d.line = some n.toInt ∧
        e.line = some m.toInt) → Alike ρ n m request (.error d) (.error e)

variable {n m : Int32} {request : Request}

end

end Load

end TypeStub
