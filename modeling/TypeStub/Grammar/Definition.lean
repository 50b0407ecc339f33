import TypeStub.Grammar.TypeExpr

namespace TypeStub.Grammar

open TypeStub.Parser

-- Whether the first three tokens are a type comment, the word `ignore`, and what may follow it.
def startsIgnoreComment : List Token → Bool
  | comment :: word :: rest =>
      let after := (rest.headD Token.stop).kind
      comment.kind == .typeComment && word.kind == .ident && word.text == "ignore" &&
        (after == .newline || after == .leftBracket || after == .endOfFile)
  | _ => false

def atIgnoreComment : Parser Bool := fun tokens => .ok (startsIgnoreComment tokens) tokens

-- The words between the brackets of an ignore comment.
def skipCodes : Parser Unit := fun tokens =>
  .ok () (tokens.dropWhile fun token =>
    token.kind == .ident || token.kind == .comma || token.kind == .minus)

-- `# type: ignore` or `# type: ignore[code, ...]`.
def ignoreComment : Parser Unit := do
  let _ ← expect .typeComment
  let word ← peek
  unless word.kind = .ident ∧ word.text = "ignore" do unexpected []
  let _ ← next
  if ← accept .leftBracket then
    skipCodes
    let _ ← expect .rightBracket

def ignoreCommentIfAny : Parser Unit := do
  if (← peek).kind = .typeComment then ignoreComment

-- A type after a colon, when there is a colon.
def hint? (type : Parser Expr) : Parser (Option Expr) := do
  if ← accept .colon then return some (← type)
  return none

def param (type : Parser Expr) : Parser Param := do
  if ← accept .ellipsis then return .ellipsis
  if ← accept .doubleStar then
    let name ← expect .ident
    return .doubleStar name.text (← hint? type)
  if ← accept .star then
    if (← peek).kind = .ident then
      let name ← next
      return .star name.text (← hint? type)
    return .bareStar
  let name ← expect .ident
  let hint ← hint? type
  if ← accept .equal then return .ordinary name.text hint (some (← defaultValue))
  return .ordinary name.text hint none

-- The parameters after the opening parenthesis.
def params (type : Parser Expr) : Parser (List Param) :=
  itemsOrNone .rightParen [.comma, .rightParen] (param type)

-- What one line of a body adds to a definition.
inductive BodyLine
  | nothing
  | raises (type : Expr)
  | mutates (name : Text) (type : Expr)

def bodyLine (type : Parser Expr) : Parser BodyLine := do
  let token ← peek
  let line ← match token.kind with
    | .ellipsis | .kwPass | .string => let _ ← next; pure BodyLine.nothing
    | .typeComment => pure BodyLine.nothing
    | .kwRaise =>
        let _ ← next
        let raised ← type
        if ← accept .leftParen then
          let _ ← expect .rightParen
        pure (BodyLine.raises raised)
    | .ident =>
        let name ← next
        let _ ← expect .colonEqual
        pure (BodyLine.mutates name.text (← type))
    | _ => unexpected []
  ignoreCommentIfAny
  let _ ← expect .newline
  return line

-- The body after the colon: one line, or an indented block of lines.
def bodyLines (type : Parser Expr) : Parser (List BodyLine) := do
  ignoreCommentIfAny
  if ← accept .newline then
    let _ ← expect .indent
    repeatUntil (accept .dedent) (bodyLine type)
  else return [← bodyLine type]

def BodyLine.raised? : BodyLine → Option Expr
  | .raises type => some type
  | _ => none

def BodyLine.mutated? : BodyLine → Option (Text × Expr)
  | .mutates name type => some (name, type)
  | _ => none

-- `@name`, on a line of its own.
def decorator : Parser Text := do
  let name ← dottedName
  let _ ← expect .newline
  return name

def returnType? (type : Parser Expr) : Parser (Option Expr) := do
  if ← accept .arrow then return some (← type)
  return none

-- What follows a definition's name.
def defBody (type : Parser Expr) : Parser DefBody := do
  if ← accept .kwPythonCode then
    let _ ← expect .newline
    return .external
  let _ ← expect .leftParen
  let params ← params type
  let returns ← returnType? type
  let lines ← if ← accept .newline then pure [] else do
    let _ ← expect .colon
    bodyLines type
  return .declared params returns (lines.filterMap BodyLine.raised?)
    (lines.filterMap BodyLine.mutated?)

-- A definition with its decorators. Its place is that of the word `def`.
def definition (type : Parser Expr) : Parser Stmt := do
  let decorators ← repeatUntil (do return !(← accept .atSign)) decorator
  let word ← expect .kwDef
  let name ← expect .ident
  let body ← defBody type
  return .definition word.place ⟨name.text, decorators, body⟩

end TypeStub.Grammar
