import TypeStub.Token

namespace TypeStub

-- Why a list of tokens is no stub.
inductive SyntaxError
  | unexpected (found : TokenKind) (expected : List TokenKind)
  | lexical (message : Text)
  | nestingTooDeep
  deriving DecidableEq, Repr

def SyntaxError.message : SyntaxError → Text
  | unexpected found [] => "syntax error, unexpected " ++ found.display
  | unexpected found expected =>
      "syntax error, unexpected " ++ found.display ++ ", expecting " ++
        Text.joinWith " or " (expected.map TokenKind.display)
  | lexical message => message
  | nestingTooDeep => "Nesting too deep"

-- A parser takes tokens from the front of a list. When it fails, what is left of the list starts
-- with the token at fault.
abbrev Parser := EStateM SyntaxError (List Token)

namespace Parser

def peekAt (offset : Nat) : Parser Token := fun tokens => .ok (tokens.getD offset Token.stop) tokens

def peek : Parser Token := peekAt 0

def peekNext : Parser Token := peekAt 1

def next : Parser Token := fun tokens => .ok (tokens.headD Token.stop) tokens.tail

-- Takes the first token if it is of this kind, and tells whether it did.
def accept (kind : TokenKind) : Parser Bool
  | [] => .ok false []
  | token :: rest => if token.kind = kind then .ok true rest else .ok false (token :: rest)

-- Fails at the first token. A lexical error keeps its own message.
def unexpected {α : Type} (expected : List TokenKind) : Parser α := fun tokens =>
  let token := tokens.headD Token.stop
  .error (if token.kind = .error then .lexical token.text else .unexpected token.kind expected)
    tokens

def tooDeep {α : Type} : Parser α := fun tokens => .error .nestingTooDeep tokens

-- Takes the first token, which has to be of this kind.
def expect (kind : TokenKind) : Parser Token := do
  let token ← peek
  if ← accept kind then return token
  unexpected [kind]

-- Items until the test says to stop. An item that takes no token is the last.
def repeatUntil {α : Type} (stop : Parser Bool) (item : Parser α) : Parser (List α) := fun tokens =>
  match stop tokens with
  | .error e rest => .error e rest
  | .ok true rest => .ok [] rest
  | .ok false rest =>
      match item rest with
      | .error e rest => .error e rest
      | .ok a rest =>
          if rest.length < tokens.length then
            match repeatUntil stop item rest with
            | .error e rest => .error e rest
            | .ok as rest => .ok (a :: as) rest
          else .ok [a] rest
termination_by tokens => tokens.length

-- One item, then more, each after a separator.
def separated {α : Type} (separator : TokenKind) (item : Parser α) : Parser (List α) := do
  let first ← item
  let more ← repeatUntil (do return !(← accept separator)) item
  return first :: more

-- Whether a list of items ends here: at the closing token, or after a comma before it.
def closes (close : TokenKind) (expected : List TokenKind) : Parser Bool := do
  if ← accept close then return true
  unless ← accept .comma do unexpected expected
  accept close

-- At least one item up to the closing token, with commas between and maybe one at the end.
def items {α : Type} (close : TokenKind) (expected : List TokenKind) (item : Parser α) :
    Parser (List α) := do
  let first ← item
  let more ← repeatUntil (closes close expected) item
  return first :: more

-- The same, or nothing before the closing token.
def itemsOrNone {α : Type} (close : TokenKind) (expected : List TokenKind) (item : Parser α) :
    Parser (List α) := do
  if ← accept close then return []
  items close expected item

-- A name and the names after its dots. A dot without a name is left alone.
def dottedRest : List Token → Text × List Token
  | dot :: name :: rest =>
      if dot.kind = .dot ∧ name.kind = .ident then
        let (text, after) := dottedRest rest
        ('.' :: name.text ++ text, after)
      else ([], dot :: name :: rest)
  | tokens => ([], tokens)

def dottedName : Parser Text := do
  let first ← expect .ident
  let more ← fun tokens => let (text, rest) := dottedRest tokens; .ok text rest
  return first.text ++ more

end Parser

end TypeStub
