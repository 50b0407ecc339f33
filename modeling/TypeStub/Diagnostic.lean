import TypeStub.Text

namespace TypeStub

-- Why a stub was refused, with what is known of the place: the line and column counted from one,
-- the file, and the source line.
structure Diagnostic where
  message : Text
  line : Option Int
  filename : Option Text
  text : Option Text
  column : Option Int
  deriving DecidableEq, Repr

namespace Diagnostic

-- The file and line, when at least one of them is known.
def header (d : Diagnostic) : Text :=
  match d.filename, d.line with
  | none, none => []
  | filename, line =>
      "  File: \"" ++ filename.getD "None" ++ "\", line " ++
        (line.map Text.ofInt).getD "None" ++ "\n"

-- How far the caret stands from the margin, for a line without so many leading blanks. The
-- column is a 32-bit number, and one before the excerpt is moved to the margin.
def caretOffset (column : Int) (leading : Nat) : Nat :=
  (Int.bmod (4 + (column - 1) - leading) 4294967296).toNat

-- The source line without its leading blanks, and a caret below the column.
def excerpt (d : Diagnostic) : Text :=
  match d.text, d.column with
  | some text, some column =>
      let leading := (text.takeWhile Text.isBlank).length
      "    " ++ text.drop leading ++ "\n" ++ Text.spaces (caretOffset column leading) ++ "^\n"
  | _, _ => []

def display (d : Diagnostic) : Text :=
  d.header ++ d.excerpt ++ "ParseError: " ++ d.message

end Diagnostic

end TypeStub
