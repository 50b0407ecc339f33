import TypeStub.Text

namespace TypeStub

-- A double-precision number, kept exactly: a sign and either mantissa · 2 ^ exponent or infinity.
inductive Binary64
  | finite (negative : Bool) (mantissa : Nat) (exponent : Int)
  | infinite (negative : Bool)
  deriving DecidableEq, Repr

-- The quotient rounded to the nearest natural number, a half to the even neighbour.
def roundHalfEven (num den : Nat) : Nat :=
  let quotient := num / den
  let twice := 2 * (num % den)
  if twice > den ∨ (twice = den ∧ quotient % 2 = 1) then quotient + 1 else quotient

-- The ratio num / den divided by 2 ^ exponent, again as a ratio.
def scaleRatio (num den : Nat) (exponent : Int) : Nat × Nat :=
  if exponent < 0 then (num <<< exponent.natAbs, den) else (num, den <<< exponent.natAbs)

namespace Binary64

def smallestExponent : Int := -1074

def largestExponent : Int := 971

-- A mantissa has 53 binary digits.
def mantissaLimit : Nat := 1 <<< 53

-- The exponent at which num / den has 53 binary digits before the point, or the smallest one.
def exponentFor (num den : Nat) : Int :=
  let guess : Int := (num.log2 : Int) - den.log2 - 53
  let (n, d) := scaleRatio num den guess
  let exact := if n / d < mantissaLimit then guess else guess + 1
  max exact smallestExponent

-- The double nearest to num / den, a tie going to the even mantissa.
def ofRatio (num den : Nat) : Binary64 :=
  if num = 0 then .finite false 0 0
  else
    let exponent := exponentFor num den
    let (n, d) := scaleRatio num den exponent
    let mantissa := roundHalfEven n d
    if exponent > largestExponent ∨ (exponent = largestExponent ∧ mantissa ≥ mantissaLimit) then
      .infinite false
    else .finite false mantissa exponent

-- The double nearest to digits · 10 ^ scale. Far outside the range of doubles the power of ten is
-- not computed.
def ofDecimal (digits : Nat) (scale : Int) : Binary64 :=
  let magnitude : Int := (Text.ofNat digits).length + scale
  if digits = 0 ∨ magnitude < -400 then .finite false 0 0
  else if magnitude > 400 then .infinite false
  else if scale < 0 then ofRatio digits (Nat.pow 10 scale.natAbs)
  else ofRatio (digits * Nat.pow 10 scale.natAbs) 1

def neg : Binary64 → Binary64
  | .finite negative mantissa exponent => .finite (!negative) mantissa exponent
  | .infinite negative => .infinite (!negative)

-- The double nearest to a finite double divided by a positive number.
def divNat (x : Binary64) (n : Nat) : Binary64 :=
  match x with
  | .finite negative mantissa exponent =>
      let (num, den) := scaleRatio mantissa n (-exponent)
      if negative then (ofRatio num den).neg else ofRatio num den
  | .infinite negative => .infinite negative

def signText (negative : Bool) : Text := if negative then "-" else ""

-- The exact value rounded to so many places after the point, a half to the even neighbour.
def fixed (places : Nat) : Binary64 → Text
  | .infinite negative => signText negative ++ "inf"
  | .finite negative mantissa exponent =>
      let one := Nat.pow 10 places
      let (num, den) := scaleRatio (mantissa * one) 1 (-exponent)
      let units := roundHalfEven num den
      let fraction := Text.ofNat (units % one)
      signText negative ++ Text.ofNat (units / one) ++ "." ++
        List.replicate (places - fraction.length) '0' ++ fraction

end Binary64

end TypeStub
