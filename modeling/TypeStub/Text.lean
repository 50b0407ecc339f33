namespace TypeStub

-- A text is a sequence of bytes, one character (U+0000 to U+00FF) per byte. A stub need not be
-- valid in any encoding, its columns count bytes, and its names sort by their bytes.
abbrev Text := List Char

instance : Coe String Text := ⟨String.toList⟩

namespace Text

def isBlank (c : Char) : Bool := c == ' ' || c == '\t' || c == '\x0c'

def isIdentStart (c : Char) : Bool := c.isAlpha || c == '_'

def isIdentChar (c : Char) : Bool := c.isAlphanum || c == '_'

def joinWith (separator : Text) (parts : List Text) : Text := separator.intercalate parts

theorem joinWith_singleton (separator first : Text) : joinWith separator [first] = first := by
  simp [joinWith, List.intercalate]

theorem joinWith_cons (separator first next : Text) (rest : List Text) :
    joinWith separator (first :: next :: rest) =
      first ++ separator ++ joinWith separator (next :: rest) := by
  simp [joinWith, List.intercalate]

theorem joinWith_cons_flatMap (separator first : Text) (rest : List Text) :
    joinWith separator (first :: rest) = first ++ rest.flatMap (separator ++ ·) := by
  induction rest generalizing first with
  | nil => rw [joinWith_singleton, List.flatMap_nil, List.append_nil]
  | cons next more ih =>
      rw [joinWith_cons, ih, List.flatMap_cons, List.append_assoc, List.append_assoc]

-- The pieces between newlines. A newline ends a line, so the last one opens no further line.
def splitLines : Text → List Text
  | [] => []
  | c :: rest =>
      if c = '\n' then [] :: splitLines rest
      else match splitLines rest with
        | [] => [[c]]
        | line :: more => (c :: line) :: more

-- The parts before and after the last dot, when there is one.
def splitLastDot : Text → Option (Text × Text)
  | [] => none
  | c :: rest =>
      match splitLastDot rest with
      | some (before, after) => some (c :: before, after)
      | none => if c = '.' then some ([], rest) else none

-- What follows a given beginning.
def after? (beginning text : Text) : Option Text := beginning.isPrefixOf? text

def startsWith (beginning text : Text) : Bool := beginning.isPrefixOf text

def ofNat (n : Nat) : Text := Nat.toDigits 10 n

def ofInt (n : Int) : Text := if n < 0 then '-' :: ofNat n.natAbs else ofNat n.natAbs

def spaces (n : Nat) : Text := List.replicate n ' '

-- What a reader that stops at the first zero byte sees.
def upToNul (text : Text) : Text := text.takeWhile (· != '\x00')

end Text

-- Names in byte order without repeats.
def insertSorted (name : Text) : List Text → List Text
  | [] => [name]
  | head :: rest =>
      if name < head then name :: head :: rest
      else if name = head then head :: rest
      else head :: insertSorted name rest

def sortedNames (names : List Text) : List Text := names.foldr insertSorted []

end TypeStub
