import TypeStub.Diagnostic
import TypeStub.Grammar.Statement
import TypeStub.Token.Stream

namespace TypeStub

-- The statements of a stub, or the first token at fault and what is wrong with it.
def parseTokens (tokens : List Token) : Except (SyntaxError × Token) (List Stmt) :=
  match Grammar.module tokens with
  | .ok body _ => .ok body
  | .error e rest => .error (e, rest.headD Token.stop)

-- A syntax error at a token, with its source line unless that is empty.
def SyntaxError.diagnostic (e : SyntaxError) (token : Token) (lines : List Text) : Diagnostic :=
  let text := lineAt lines token.place.line.toInt
  { message := e.message
    line := some token.place.line.toInt
    filename := none
    text := if text = [] then none else some text
    column := some token.place.column.toInt }

-- The statements of a source's lines.
def parseLines (lines : List Text) (tokens : List Token) : Except Diagnostic (List Stmt) :=
  match parseTokens tokens with
  | .ok body => .ok body
  | .error (e, token) => .error (e.diagnostic token lines)

-- The statements of a source, by itself.
def parseSource (source : Text) : Except Diagnostic (List Stmt) :=
  let lines := sourceLines source
  parseLines lines (tokenize lines)

end TypeStub
