import TypeStub.Grammar.Literal
import TypeStub.Grammar.TypeExpr

namespace TypeStub.Grammar

open TypeStub.Parser

def compareOp? : TokenKind → Option CompareOp
  | .eqEq => some .eq
  | .notEq => some .notEq
  | .less => some .less
  | .lessEq => some .lessEq
  | .greater => some .greater
  | .greaterEq => some .greaterEq
  | _ => none

-- The part of a slice before a colon or the closing bracket, when there is one.
def bound? : Parser (Option Expr) := do
  match (← peek).kind with
  | .colon | .rightBracket => return none
  | _ => return some (← signedNumber)

-- What follows the start of a slice, or an index, which needs no more.
def indexOrSliceFrom (start : Option Expr) : Parser Expr := do
  if ← accept .colon then
    let stop ← bound?
    let step ← if ← accept .colon then
        if (← peek).kind = .rightBracket then pure none else some <$> signedNumber
      else pure none
    return .slice start stop step
  match start with
  | some index => return index
  | none => unexpected []

-- `index`, or a slice `start:stop:step` with every part optional.
def indexOrSlice : Parser Expr := do
  let start ← if (← peek).kind = .colon then pure none else some <$> signedNumber
  indexOrSliceFrom start

-- What a name is compared to: a number, a string, or a tuple of such values.
def conditionValue : Nat → Parser Expr
  | 0 => tooDeep
  | budget + 1 => do
      let token ← peek
      match token.kind with
      | .int | .float | .minus => signedNumber
      | .string => let _ ← next; return .string (unquote token.text)
      | .leftParen =>
          let _ ← next
          return .tuple (← itemsOrNone .rightParen [.rightParen] (conditionValue budget))
      | _ => unexpected []

-- A dotted name, maybe indexed.
def conditionName : Parser Expr := do
  let name ← dottedName
  if ← accept .leftBracket then
    let index ← indexOrSlice
    let _ ← expect .rightBracket
    return .subscript (.name name) [index]
  return .name name

-- A comparison, or a condition in parentheses.
def conditionTerm (condition value : Parser Expr) : Parser Expr := do
  if ← accept .leftParen then
    let inner ← condition
    let _ ← expect .rightParen
    return inner
  let left ← conditionName
  match compareOp? (← peek).kind with
  | some op =>
      let _ ← next
      return .compare left op (← value)
  | none => unexpected []

-- A condition in which at most so many conditions and values are nested.
def condition : Nat → Parser Expr
  | 0 => tooDeep
  | budget + 1 => do
      let term := conditionTerm (condition budget) (conditionValue budget)
      return alternatives (← separated .kwOr term)

end TypeStub.Grammar
