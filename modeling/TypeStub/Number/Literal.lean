import TypeStub.Number.Binary64

namespace TypeStub

-- The value of one digit in a base up to sixteen.
def digitValue? (base : Nat) (c : Char) : Option Nat :=
  let value :=
    if c.isDigit then c.toNat - '0'.toNat
    else if 'a' ≤ c ∧ c ≤ 'f' then c.toNat - 'a'.toNat + 10
    else if 'A' ≤ c ∧ c ≤ 'F' then c.toNat - 'A'.toNat + 10
    else base
  if value < base then some value else none

def foldDigits? (base : Nat) : Nat → Text → Option Nat
  | value, [] => some value
  | value, c :: rest =>
      match digitValue? base c with
      | some digit => foldDigits? base (value * base + digit) rest
      | none => none

-- A non-empty run of digits.
def readNat? (base : Nat) (digits : Text) : Option Nat :=
  if digits = [] then none else foldDigits? base 0 digits

-- A literal's digits without underscores and without the one-letter long suffix.
def bareDigits (literal : Text) : Text :=
  let digits := literal.filter (· != '_')
  match digits.getLast? with
  | some c => if c = 'l' ∨ c = 'L' then digits.dropLast else digits
  | none => digits

-- A leading zero with a base letter, or an octal number when there is no letter.
def splitBase (digits : Text) : Nat × Text :=
  match digits with
  | '0' :: c :: rest =>
      if c = 'x' ∨ c = 'X' then (16, rest)
      else if c = 'o' ∨ c = 'O' then (8, rest)
      else if c = 'b' ∨ c = 'B' then (2, rest)
      else (8, c :: rest)
  | _ => (10, digits)

-- One more than the greatest integer that a literal may denote.
def intLimit : Nat := 9223372036854775808

-- An integer literal's value, when it is well formed and within the limit.
def intLiteral? (literal : Text) : Option Int :=
  let (base, digits) := splitBase (bareDigits literal)
  match readNat? base digits with
  | some value => if value < intLimit then some (value : Int) else none
  | none => none

-- The decimal exponent written after e or E, or zero.
def exponentOf : Text → Option Int
  | [] => some 0
  | _ :: '-' :: digits => (readNat? 10 digits).map fun n => -(n : Int)
  | _ :: '+' :: digits => (readNat? 10 digits).map fun n => (n : Int)
  | _ :: digits => (readNat? 10 digits).map fun n => (n : Int)

-- A float literal's value: digits with an optional point and an optional exponent.
def floatLiteral? (literal : Text) : Option Binary64 :=
  let text := bareDigits literal
  let isExponentMark (c : Char) : Bool := c == 'e' || c == 'E'
  let significand := text.takeWhile (!isExponentMark ·)
  let whole := significand.takeWhile (· != '.')
  let fraction := (significand.dropWhile (· != '.')).drop 1
  match readNat? 10 (whole ++ fraction), exponentOf (text.dropWhile (!isExponentMark ·)) with
  | some digits, some exponent => some (Binary64.ofDecimal digits (exponent - fraction.length))
  | _, _ => none

end TypeStub
