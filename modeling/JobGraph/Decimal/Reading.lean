import JobGraph.Decimal.Digits
import JobGraph.Decimal.Shortest

/-!
# Doubles from decimal texts

The double nearest to a decimal text.  A text is a sign, digits with at most one point among or
around them, and an exponent; the words for infinity and for not-a-number count as well, in any
case.
-/

namespace JobGraph.Decimal

/-- The double nearest to a scaled number.  The two bounds are far beyond the range of doubles. -/
def Scaled.toFloat (decimal : Scaled) : Float :=
  let top : Int := digitCount decimal.digits + decimal.exponent
  if decimal.digits = 0 ∨ top < -400 then 0
  else if 400 < top then 1 / 0
  else Float.ofScientific decimal.digits (decimal.exponent < 0) decimal.exponent.natAbs

/-- Reads an exponent, the letter included; no text is the exponent zero. -/
def readExponent? : List Char → Option Int
  | [] => some 0
  | c :: rest =>
      if c = 'e' ∨ c = 'E' then
        let (negative, digits) := match rest with
          | '-' :: ds => (true, ds)
          | '+' :: ds => (false, ds)
          | ds => (false, ds)
        if digits.isEmpty || !digits.all isDigit then none
        else some (if negative then -(ofDigits digits : Int) else ofDigits digits)
      else none

/-- Reads digits around an optional point and an exponent. -/
def readScaled? (cs : List Char) : Option Scaled :=
  let (whole, afterWhole) := spanDigits cs
  let (fraction, afterFraction) := match afterWhole with
    | '.' :: rest => spanDigits rest
    | rest => ([], rest)
  if whole.isEmpty && fraction.isEmpty then none
  else (readExponent? afterFraction).map fun exponent =>
    ⟨ofDigits (whole ++ fraction), exponent - fraction.length⟩

/-- Reads a double without its sign. -/
def readMagnitude? (cs : List Char) : Option Float :=
  let word := cs.map Char.toLower
  if word = "inf".toList ∨ word = "infinity".toList then some (1 / 0)
  else if word = "nan".toList then some (0 / 0)
  else (readScaled? cs).map Scaled.toFloat

/-- Reads a double with an optional sign. -/
def readFloat? : List Char → Option Float
  | '-' :: rest => (readMagnitude? rest).map fun x => -x
  | '+' :: rest => readMagnitude? rest
  | cs => readMagnitude? cs

end JobGraph.Decimal
