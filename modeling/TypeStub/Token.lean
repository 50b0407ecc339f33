import TypeStub.Text

namespace TypeStub

inductive TokenKind
  | endOfFile | newline | indent | dedent | error
  | kwDef | kwClass | kwIf | kwElif | kwElse | kwImport | kwFrom | kwAs | kwPass | kwRaise
  | kwOr | kwAnd | kwPythonCode | bool
  | arrow | colon | colonEqual | comma | equal | star | doubleStar | atSign | question | minus | dot
  | eqEq | notEq | less | lessEq | greater | greaterEq
  | leftParen | rightParen | leftBracket | rightBracket
  | ident | int | float | string | ellipsis | typeComment
  deriving DecidableEq, Repr

namespace TokenKind

-- Every kind, in the order in which they are numbered.
def all : List TokenKind :=
  [.endOfFile, .newline, .indent, .dedent, .error,
   .kwDef, .kwClass, .kwIf, .kwElif, .kwElse, .kwImport, .kwFrom, .kwAs, .kwPass, .kwRaise,
   .kwOr, .kwAnd, .kwPythonCode, .bool,
   .arrow, .colon, .colonEqual, .comma, .equal, .star, .doubleStar, .atSign, .question, .minus,
   .dot, .eqEq, .notEq, .less, .lessEq, .greater, .greaterEq,
   .leftParen, .rightParen, .leftBracket, .rightBracket,
   .ident, .int, .float, .string, .ellipsis, .typeComment]

-- The name of a kind in a syntax error.
def display : TokenKind → Text
  | endOfFile => "end of file"
  | newline => "NEWLINE"
  | indent => "INDENT"
  | dedent => "DEDENT"
  | error => "error"
  | kwDef => "DEF"
  | kwClass => "CLASS"
  | kwIf => "IF"
  | kwElif => "ELIF"
  | kwElse => "ELSE"
  | kwImport => "IMPORT"
  | kwFrom => "FROM"
  | kwAs => "AS"
  | kwPass => "PASS"
  | kwRaise => "RAISE"
  | kwOr => "OR"
  | kwAnd => "AND"
  | kwPythonCode => "PYTHONCODE"
  | bool => "BOOL"
  | arrow => "ARROW"
  | colon => "':'"
  | colonEqual => "COLONEQUALS"
  | comma => "','"
  | equal => "'='"
  | star => "'*'"
  | doubleStar => "'**'"
  | atSign => "'@'"
  | question => "'?'"
  | minus => "'-'"
  | dot => "'.'"
  | eqEq => "EQ"
  | notEq => "NE"
  | less => "'<'"
  | lessEq => "LE"
  | greater => "'>'"
  | greaterEq => "GE"
  | leftParen => "'('"
  | rightParen => "')'"
  | leftBracket => "'['"
  | rightBracket => "']'"
  | ident => "NAME"
  | int | float => "NUMBER"
  | string => "STRING"
  | ellipsis => "ELLIPSIS"
  | typeComment => "TYPECOMMENT"

-- A word that is reserved has its own kind.
def ofWord (word : Text) : TokenKind :=
  if word = "def" then kwDef
  else if word = "class" then kwClass
  else if word = "if" then kwIf
  else if word = "elif" then kwElif
  else if word = "else" then kwElse
  else if word = "import" then kwImport
  else if word = "from" then kwFrom
  else if word = "as" then kwAs
  else if word = "pass" then kwPass
  else if word = "raise" then kwRaise
  else if word = "or" then kwOr
  else if word = "and" then kwAnd
  else if word = "PYTHONCODE" then kwPythonCode
  else if word = "True" ∨ word = "False" then bool
  else ident

end TokenKind

-- The line and column of a token, counted from one. Either is kept in 32 bits: from 2147483648 on
-- a number is kept as another one.
structure Place where
  line : Int32
  column : Int32
  deriving DecidableEq, Repr

-- A token with the exact line and column of its first byte, both counted from one. The text is the
-- source's own, except that an error token carries its message.
structure Token where
  kind : TokenKind
  text : Text
  line : Nat
  column : Nat
  deriving DecidableEq, Repr

-- What is kept of where a token stands. Nothing that reads tokens sees more of it.
def Token.place (t : Token) : Place := ⟨.ofNat t.line, .ofNat t.column⟩

-- What lies past the end of every token list.
def Token.stop : Token := ⟨.endOfFile, [], 1, 1⟩

-- Why a text has no tokens from some point on.
inductive LexError
  | invalidIndentation
  | unterminatedString
  | illegalCharacter (shown : Text)
  deriving DecidableEq, Repr

def LexError.message : LexError → Text
  | invalidIndentation => "Invalid indentation"
  | unterminatedString => "Unterminated string"
  | illegalCharacter shown => "Illegal character '" ++ shown ++ "'"

end TypeStub
