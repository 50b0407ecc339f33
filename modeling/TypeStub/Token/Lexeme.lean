import TypeStub.Token

namespace TypeStub

-- What stands at the head of a line's remaining text. Lengths count bytes.
inductive Lexeme
  | blank
  | comment
  | continuation
  | token (kind : TokenKind) (length : Nat)
  | tripleQuoted (prefixLength : Nat) (quote : Char)
  | bad (cause : LexError)
  deriving DecidableEq, Repr

namespace Lexeme

open Text

def backtick : Char := '\x60'

def isQuote (c : Char) : Bool := c == '"' || c == '\''

def isStringPrefix (c : Char) : Bool :=
  c == 'b' || c == 'B' || c == 'r' || c == 'R' || c == 'u' || c == 'U'

-- The length of a `# type:` opening that starts with the hash sign before the text.
def typeCommentLength? (afterHash : Text) : Option Nat :=
  let blanks := (afterHash.takeWhile isBlank).length
  if startsWith "type:" (afterHash.drop blanks) then some (blanks + 6) else none

-- The number of bytes through the closing quote. A backslash hides the byte after it.
def closingQuote? (quote : Char) : Text → Option Nat
  | [] => none
  | '\\' :: [] => none
  | '\\' :: _ :: rest => (closingQuote? quote rest).map (· + 2)
  | c :: rest => if c = quote then some 1 else (closingQuote? quote rest).map (· + 1)

-- The number of bytes through the three closing quotes.
def closingTriple? (quote : Char) : Text → Option Nat
  | [] => none
  | '\\' :: [] => none
  | '\\' :: _ :: rest => (closingTriple? quote rest).map (· + 2)
  | c :: rest =>
      if startsWith [quote, quote, quote] (c :: rest) then some 3
      else (closingTriple? quote rest).map (· + 1)

-- A string literal, after so many prefix letters and one quote.
def ofQuote (prefixLength : Nat) (quote : Char) (rest : Text) : Lexeme :=
  if startsWith [quote, quote] rest then .tripleQuoted prefixLength quote
  else match closingQuote? quote rest with
    | some length => .token .string (prefixLength + 1 + length)
    | none => .bad .unterminatedString

-- A string literal, when the text starts with one: at most two prefix letters before a quote.
def string? (text : Text) : Option Lexeme :=
  let letters := (text.take 2).takeWhile isStringPrefix
  match text.drop letters.length with
  | c :: rest => if isQuote c then some (ofQuote letters.length c rest) else none
  | [] => none

-- The length of a run of digits and underscores.
def digitRun (isDigit : Char → Bool) (text : Text) : Nat :=
  (text.takeWhile fun c => isDigit c || c == '_').length

def isHexDigit (c : Char) : Bool :=
  c.isDigit || ('a' ≤ c && c ≤ 'f') || ('A' ≤ c && c ≤ 'F')

-- Zero and a letter open a number in another base, unless the letter is an exponent or a suffix.
def opensBase (text : Text) : Bool :=
  match text with
  | c :: letter :: _ =>
      c == '0' && letter.isAlpha && letter != 'e' && letter != 'E' && letter != 'l' && letter != 'L'
  | _ => false

-- The length of the point and fraction after the whole digits. Two points belong to an ellipsis.
def fractionLength? (text : Text) : Option Nat :=
  match text with
  | '.' :: rest => if rest.head? = some '.' then none else some (1 + digitRun Char.isDigit rest)
  | _ => none

-- The length of an exponent, which needs a digit.
def exponentLength? (text : Text) : Option Nat :=
  match text with
  | [] => none
  | mark :: rest =>
      if mark = 'e' ∨ mark = 'E' then
        let signs := (rest.take 1).takeWhile fun c => c == '+' || c == '-'
        let digits := rest.drop signs.length
        if (digits.head?.any Char.isDigit) then
          some (1 + signs.length + digitRun Char.isDigit digits)
        else none
      else none

def suffixLength (text : Text) : Nat :=
  if text.head? = some 'l' ∨ text.head? = some 'L' then 1 else 0

-- An integer ends with an optional long suffix; a point or an exponent makes a float.
def number (text : Text) : Lexeme :=
  if opensBase text then
    let length := 2 + digitRun isHexDigit (text.drop 2)
    .token .int (length + suffixLength (text.drop length))
  else
    let whole := digitRun Char.isDigit text
    let fraction := fractionLength? (text.drop whole)
    let significand := whole + fraction.getD 0
    match fraction, exponentLength? (text.drop significand) with
    | none, none => .token .int (whole + suffixLength (text.drop whole))
    | _, exponent => .token .float (significand + exponent.getD 0)

-- One name between backticks is an identifier, backticks kept.
def quotedName? (rest : Text) : Option Lexeme :=
  let name := rest.takeWhile (· != backtick)
  if 0 < name.length ∧ name.length < rest.length then some (.token .ident (name.length + 2))
  else none

def word (text : Text) : Lexeme :=
  let letters := text.takeWhile isIdentChar
  .token (.ofWord letters) letters.length

-- The length of the byte sequence that the first byte announces, when its continuation bytes follow.
def sequenceLength? (first : Char) (rest : Text) : Option Nat :=
  let lead := first.toNat
  let length? :=
    if lead < 0x80 then some 1
    else if lead / 0x20 = 0x6 then some 2
    else if lead / 0x10 = 0xE then some 3
    else if lead / 0x8 = 0x1E then some 4
    else none
  match length? with
  | some length =>
      let continuation := rest.take (length - 1)
      if continuation.length + 1 = length ∧ continuation.all (fun c => c.toNat / 0x40 = 0x2) then
        some length
      else none
  | none => none

def upperHexDigit (n : Nat) : Char := (Nat.digitChar n).toUpper

-- The offending character as it stands, or a stray byte in hexadecimal.
def illegal (first : Char) (rest : Text) : Lexeme :=
  .bad <| .illegalCharacter <|
    match sequenceLength? first rest with
    | some length => (first :: rest).take length
    | none => "\\x" ++ [upperHexDigit (first.toNat / 16), upperHexDigit (first.toNat % 16)]

-- Operators and punctuation, the longest first.
def symbol (first : Char) (rest : Text) : Lexeme :=
  match first, rest with
  | '(', _ => .token .leftParen 1
  | ')', _ => .token .rightParen 1
  | '[', _ => .token .leftBracket 1
  | ']', _ => .token .rightBracket 1
  | ',', _ => .token .comma 1
  | '@', _ => .token .atSign 1
  | '?', _ => .token .question 1
  | ':', '=' :: _ => .token .colonEqual 2
  | ':', _ => .token .colon 1
  | '-', '>' :: _ => .token .arrow 2
  | '-', _ => .token .minus 1
  | '*', '*' :: _ => .token .doubleStar 2
  | '*', _ => .token .star 1
  | '=', '=' :: _ => .token .eqEq 2
  | '=', _ => .token .equal 1
  | '<', '=' :: _ => .token .lessEq 2
  | '<', _ => .token .less 1
  | '>', '=' :: _ => .token .greaterEq 2
  | '>', _ => .token .greater 1
  | '!', '=' :: _ => .token .notEq 2
  | '.', '.' :: '.' :: _ => .token .ellipsis 3
  | '.', _ => .token .dot 1
  | _, _ => illegal first rest

-- A backslash joins the next line when only blanks follow it.
def backslash (rest : Text) : Lexeme :=
  if rest.all isBlank then .continuation else .bad (.illegalCharacter "\\")

def startsNumber (first : Char) (rest : Text) : Bool :=
  first.isDigit || (first == '.' && rest.head?.any Char.isDigit)

-- The lexeme at the head of a text that is not empty.
def ofText (first : Char) (rest : Text) : Lexeme :=
  if isBlank first then .blank
  else if first = '#' then
    match typeCommentLength? rest with
    | some length => .token .typeComment length
    | none => .comment
  else if first = '\\' then backslash rest
  else match string? (first :: rest) with
    | some lexeme => lexeme
    | none =>
        if startsNumber first rest then number (first :: rest)
        else if first = backtick then (quotedName? rest).getD (illegal first rest)
        else if isIdentStart first then word (first :: rest)
        else symbol first rest

end Lexeme

end TypeStub
