import TypeStub.Grammar.Parser
import TypeStub.Number.Literal
import TypeStub.Syntax

namespace TypeStub

-- The body of a string literal: its text between the first quotes, taken as triple when three
-- stand together and the text is long enough to close them, and the same number at its end.
def unquote (literal : Text) : Text :=
  let isQuote (c : Char) : Bool := c == '"' || c == '\''
  match literal.dropWhile (!isQuote ·) with
  | [] => literal
  | quote :: rest =>
      let quoted := quote :: rest
      let width := if Text.startsWith [quote, quote] rest ∧ 6 ≤ quoted.length then 3 else 1
      (quoted.drop width).take (quoted.length - 2 * width)

namespace Grammar

open TypeStub.Parser

-- A number after an optional minus sign.
def signedNumber : Parser Expr := do
  let negative ← accept .minus
  let token ← peek
  match token.kind with
  | .int =>
      match intLiteral? token.text with
      | some value =>
          let _ ← next
          return .int (if negative then -value else value)
      | none => unexpected []
  | .float =>
      match floatLiteral? token.text with
      | some value =>
          let _ ← next
          return .float (if negative then value.neg else value)
      | none => unexpected []
  | _ => unexpected [.int]

def truth (token : Token) : Expr := .bool (token.text = "True")

def defaultValue : Parser Expr := do
  let token ← peek
  match token.kind with
  | .int | .float | .minus => signedNumber
  | .bool => let _ ← next; return truth token
  | .ellipsis => let _ ← next; return .ellipsis
  | .string => let _ ← next; return .string (unquote token.text)
  | .ident => return .name (← dottedName)
  | _ => unexpected []

end Grammar

end TypeStub
