import TypeStub.Grammar.Literal

namespace TypeStub.Grammar

open TypeStub.Parser

-- The name of a record or of one of its fields, bare or in quotes.
def fieldName : Parser Text := do
  let token ← peek
  match token.kind with
  | .ident => let _ ← next; return token.text
  | .string => let _ ← next; return unquote token.text
  | _ => unexpected [.ident, .string]

-- `(name, type)`, maybe with a comma before the closing parenthesis.
def recordField (type : Parser Expr) : Parser (Text × Expr) := do
  let _ ← expect .leftParen
  let name ← fieldName
  let _ ← expect .comma
  let fieldType ← type
  let _ ← accept .comma
  let _ ← expect .rightParen
  return (name, fieldType)

-- `NamedTuple(name, [field, ...])`, from its opening word.
def record (type : Parser Expr) : Parser Expr := do
  let _ ← next
  let _ ← next
  let name ← fieldName
  let _ ← expect .comma
  let _ ← expect .leftBracket
  let fields ← itemsOrNone .rightBracket [.rightBracket] (recordField type)
  let _ ← accept .comma
  let _ ← expect .rightParen
  return .record name fields

def typeItems (type : Parser Expr) : Parser (List Expr) :=
  items .rightBracket [.comma, .rightBracket] type

-- A type that is no union; types inside it are read by the given parser.
def typeAtom (type : Parser Expr) : Parser Expr := do
  let token ← peek
  match token.kind with
  | .question => let _ ← next; return .question
  | .ellipsis => let _ ← next; return .ellipsis
  | .leftParen =>
      let _ ← next
      let inner ← type
      let _ ← expect .rightParen
      return inner
  | .leftBracket =>
      let _ ← next
      if ← accept .rightBracket then return .list []
      return .list (← typeItems type)
  | .ident =>
      if token.text = "NamedTuple" ∧ (← peekNext).kind = .leftParen then record type
      else
        let name ← dottedName
        if ← accept .leftBracket then return .subscript (.name name) (← typeItems type)
        return .name name
  | _ => unexpected []

-- A sequence of alternatives between `or`; a single one stands for itself.
def alternatives (operands : List Expr) : Expr :=
  match operands with
  | [single] => single
  | _ => .or operands

-- A type in which at most so many types are nested, itself included.
def typeExpr : Nat → Parser Expr
  | 0 => tooDeep
  | budget + 1 => do return alternatives (← separated .kwOr (typeAtom (typeExpr budget)))

end TypeStub.Grammar
