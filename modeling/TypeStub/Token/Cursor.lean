import TypeStub.Token.Lexeme

namespace TypeStub

-- A place in a source: the row and column, both from zero, what is left of that line, and the
-- lines below it.
structure Cursor where
  row : Nat
  column : Nat
  rest : Text
  below : List Text
  deriving DecidableEq, Repr

namespace Cursor

-- The bytes in lines, the break before each line counting as one.
def linesSize : List Text → Nat
  | [] => 0
  | line :: rest => line.length + 1 + linesSize rest

-- The bytes ahead.
def size (c : Cursor) : Nat := c.rest.length + linesSize c.below

def skip (c : Cursor) (n : Nat) : Cursor :=
  { c with column := c.column + n, rest := c.rest.drop n }

-- Where the line ends, as a column.
def lineEnd (c : Cursor) : Nat := c.column + c.rest.length

-- The rest of a triple-quoted string and the place after it. Lines are joined by newlines.
def closeTriple (quote : Char) (row column : Nat) (rest : Text) :
    List Text → Option (Text × Cursor)
  | [] =>
      (Lexeme.closingTriple? quote rest).map fun n =>
        (rest.take n, ⟨row, column + n, rest.drop n, []⟩)
  | line :: more =>
      match Lexeme.closingTriple? quote rest with
      | some n => some (rest.take n, ⟨row, column + n, rest.drop n, line :: more⟩)
      | none =>
          (closeTriple quote (row + 1) 0 line more).map fun (text, next) =>
            (rest ++ '\n' :: text, next)

-- One step along a line.
inductive Step
  | token (kind : TokenKind) (text : Text) (next : Cursor)
  | blank (next : Cursor)
  | lineEnd (joined : Bool)
  | bad (cause : LexError)

-- A triple-quoted string whose prefix and opening quotes take so many bytes.
def tripleString (c : Cursor) (opening : Nat) (quote : Char) : Step :=
  match closeTriple quote c.row (c.column + opening) (c.rest.drop opening) c.below with
  | some (text, next) => .token .string (c.rest.take opening ++ text) next
  | none => .bad .unterminatedString

def step (c : Cursor) : Step :=
  match c.rest with
  | [] => .lineEnd false
  | first :: rest =>
      match Lexeme.ofText first rest with
      | .blank => .blank (c.skip 1)
      | .comment => .lineEnd false
      | .continuation => .lineEnd true
      | .token kind n => .token kind (c.rest.take n) (c.skip n)
      | .tripleQuoted prefixLength quote => c.tripleString (prefixLength + 3) quote
      | .bad cause => .bad cause

end Cursor

end TypeStub
