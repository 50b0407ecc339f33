import TypeStub.Grammar.Condition
import TypeStub.Grammar.Definition

namespace TypeStub.Grammar

open TypeStub.Parser

inductive Scope
  | module
  | classBody
  deriving DecidableEq, Repr

-- How deep blocks, types, conditions and condition values may be nested in one another.
def nestingLimit : Nat := 100

-- A parent, or a keyword with its value.
def classArg (type : Parser Expr) : Parser ClassArg := do
  if (← peek).kind = .ident ∧ (← peekNext).kind = .equal then
    let keyword ← next
    let _ ← next
    return ⟨some keyword.text, ← type⟩
  return ⟨none, ← type⟩

def classArgs (type : Parser Expr) : Parser (List ClassArg) := do
  if ← accept .leftParen then itemsOrNone .rightParen [.comma, .rightParen] (classArg type)
  else return []

-- The body after the colon: a block, or `pass` or `...` on the same line.
def classBody (block : Parser (List Stmt)) : Parser (List Stmt) := do
  match (← peek).kind with
  | .newline => block
  | .kwPass | .ellipsis =>
      let _ ← next
      let _ ← expect .newline
      return []
  | _ => unexpected [.newline]

def classDef (type : Parser Expr) (block : Parser (List Stmt)) : Parser Stmt := do
  let word ← next
  let name ← expect .ident
  let args ← classArgs type
  let _ ← expect .colon
  return .classDef word.place name.text args (← classBody block)

-- A condition and its block, after the word that opens them.
structure Branch where
  place : Place
  condition : Expr
  body : List Stmt

def branch (condition : Parser Expr) (block : Parser (List Stmt)) : Parser Branch := do
  let word ← next
  let condition ← condition
  let _ ← expect .colon
  return ⟨word.place, condition, ← block⟩

-- Each further branch stands alone in the else-body of the one before it.
def chain (branches : List Branch) (otherwise : List Stmt) : List Stmt :=
  branches.foldr (fun b rest => [.conditional b.place true b.condition b.body rest]) otherwise

def conditional (condition : Parser Expr) (block : Parser (List Stmt)) : Parser Stmt := do
  let first ← branch condition block
  let more ← repeatUntil (do return (← peek).kind != .kwElif) (branch condition block)
  let otherwise ← if ← accept .kwElse then do
      let _ ← expect .colon
      block
    else pure []
  return .conditional first.place false first.condition first.body (chain more otherwise)

def asName? : Parser (Option Text) := do
  if ← accept .kwAs then return some (← expect .ident).text
  return none

def importedModule : Parser ImportedName := do
  let name ← dottedName
  return ⟨name, ← asName?⟩

def importModules : Parser Stmt := do
  let word ← next
  let modules ← separated .comma importedModule
  let _ ← expect .newline
  return .importModules word.place modules

def importedMember : Parser ImportedName := do
  let name ← expect .ident
  return ⟨name.text, ← asName?⟩

-- The leading dots of a relative import.
def leadingDots : Parser Text := fun tokens =>
  let dots := tokens.takeWhile (·.kind == .dot)
  .ok (dots.map fun _ => '.') (tokens.drop dots.length)

-- The module of a from-import. Dots alone are enough.
def sourceModule : Parser Text := do
  let dots ← leadingDots
  if (← peek).kind = .ident ∨ dots = [] then return dots ++ (← dottedName)
  return dots

-- The members of a from-import, in parentheses or not.
def importedMembers : Parser (List ImportedName) := do
  if ← accept .leftParen then items .rightParen [.rightParen] importedMember
  else separated .comma importedMember

def importFrom : Parser Stmt := do
  let word ← next
  let module ← sourceModule
  let _ ← expect .kwImport
  let statement ←
    if ← accept .star then pure (Stmt.importAll word.place module)
    else Stmt.importFrom word.place module <$> importedMembers
  let _ ← expect .newline
  return statement

-- Whether the tokens are a word and an equals sign.
def startsKeyword : List Token → Bool
  | name :: sign :: _ => name.kind == .ident && sign.kind == .equal
  | _ => false

-- Where the constraints of a type variable end. A comma before a keyword is left for the keywords.
def constraintsEnd : Parser Bool := fun tokens =>
  match tokens with
  | [] => .ok true tokens
  | comma :: rest =>
      if comma.kind = .comma then
        if startsKeyword rest then .ok true tokens
        else .ok ((rest.headD Token.stop).kind == .rightParen) rest
      else .ok true tokens

def keywordsEnd : Parser Bool := do
  if ← accept .comma then return (← peek).kind = .rightParen
  return true

-- `name=value`. A constraint is refused here at its first token.
def keywordArg (type : Parser Expr) : Parser (Text × Expr) := do
  unless (← peek).kind = .ident ∧ (← peekNext).kind = .equal do unexpected []
  let name ← next
  let _ ← next
  let value ← peek
  if ← accept .bool then return (name.text, truth value)
  return (name.text, ← type)

-- `TypeVar('name', constraint, ..., keyword=value, ...)`, assigned to the target.
def typeVar (type : Parser Expr) (target : Token) : Parser Stmt := do
  let _ ← next
  let _ ← next
  let name ← expect .string
  let constraints ← repeatUntil constraintsEnd type
  let keywords ← repeatUntil keywordsEnd (keywordArg type)
  let _ ← expect .rightParen
  let _ ← expect .newline
  return .typeVar target.place target.text (unquote name.text) constraints keywords

-- `: type`, maybe with the placeholder value `...`.
def declaration (type : Parser Expr) : Parser Assigned := do
  let hint ← type
  let placeholder ← accept .equal
  if placeholder then
    let _ ← expect .ellipsis
  let _ ← expect .newline
  return .declared hint placeholder

def value (type : Parser Expr) : Parser Expr := do
  let token ← peek
  match token.kind with
  | .ellipsis => let _ ← next; return .ellipsis
  | .int | .float | .minus => signedNumber
  | .bool => let _ ← next; return truth token
  | _ => type

-- A type comment on the same line, unless it is an ignore comment.
def trailingComment (type : Parser Expr) : Parser (Option Expr) := do
  if ← atIgnoreComment then
    ignoreComment
    return none
  if ← accept .typeComment then return some (← type)
  return none

-- A bare `...` may have its type comment on the next line.
def followingComment (type : Parser Expr) : Parser (Option Expr) := do
  if (← peek).kind = .typeComment ∧ !(← atIgnoreComment) then
    let _ ← next
    let comment ← type
    let _ ← expect .newline
    return some comment
  return none

def isEllipsis : Expr → Bool
  | .ellipsis => true
  | _ => false

-- A value and the type comment that belongs to it.
def commentedValue (type : Parser Expr) : Parser Assigned := do
  let value ← value type
  let trailing ← trailingComment type
  let _ ← expect .newline
  if trailing.isNone ∧ isEllipsis value then return .value value (← followingComment type)
  return .value value trailing

-- A statement that starts with a name.
def assignment (type : Parser Expr) (scope : Scope) : Parser Stmt := do
  let target ← next
  if ← accept .colon then
    return .assign target.place target.text (← declaration type)
  unless ← accept .equal do unexpected [.colon, .equal]
  let word ← peek
  if word.kind = .ident ∧ word.text = "TypeVar" ∧ (← peekNext).kind = .leftParen then
    if scope = .classBody then unexpected []
    typeVar type target
  else return .assign target.place target.text (← commentedValue type)

-- A statement at a nesting with the given parsers of types, conditions and blocks. Empty lines,
-- placeholders, strings and ignore comments are no statements.
def statementWith (type condition : Parser Expr) (block : Scope → Parser (List Stmt))
    (scope : Scope) : Parser (Option Stmt) := do
  match (← peek).kind with
  | .newline => let _ ← next; return none
  | .atSign | .kwDef => return some (← definition type)
  | .kwClass =>
      if scope = .classBody then unexpected []
      return some (← classDef type (block .classBody))
  | .kwIf => return some (← conditional condition (block scope))
  | .kwImport =>
      if scope = .classBody then unexpected []
      return some (← importModules)
  | .kwFrom =>
      if scope = .classBody then unexpected []
      return some (← importFrom)
  | .kwPass | .ellipsis | .string =>
      let _ ← next
      let _ ← expect .newline
      return none
  | .typeComment =>
      ignoreComment
      let _ ← expect .newline
      return none
  | .ident => return some (← assignment type scope)
  | _ => unexpected []

-- An indented block, up to the dedent that closes it.
def blockOf (statement : Parser (Option Stmt)) : Parser (List Stmt) := do
  let _ ← expect .newline
  let _ ← expect .indent
  return (← repeatUntil (accept .dedent) statement).filterMap id

-- A statement inside which at most so many blocks, types, conditions and values are nested.
def statement : Nat → Scope → Parser (Option Stmt)
  | 0 => statementWith (typeExpr 0) (condition 0) fun _ => tooDeep
  | budget + 1 =>
      statementWith (typeExpr (budget + 1)) (condition (budget + 1)) fun scope =>
        blockOf (statement budget scope)

-- A whole stub.
def module : Parser (List Stmt) := do
  let atEnd : Parser Bool := do return (← peek).kind = .endOfFile
  return (← repeatUntil atEnd (statement nestingLimit .module)).filterMap id

end TypeStub.Grammar
