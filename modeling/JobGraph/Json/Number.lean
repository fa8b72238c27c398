import JobGraph.Decimal.Digits
import JobGraph.Decimal.Shortest
import JobGraph.Json.Basic

/-!
# JSON numbers

The grammar of a number, the value it has and the text a number is written with.

A number without fraction and exponent is an integer when 64 bits hold it, signed or unsigned.
Every other number is a double: its digits are gathered into 64 bits as long as they fit, and the
result is scaled once by a power of ten, so the double need not be the nearest one.  A number
beyond the range of doubles has no value.
-/

namespace JobGraph.Json

/-! ## Grammar -/

/-- The parts of a number as written. -/
structure Spelling where
  negative : Bool
  whole : List Char
  fraction : List Char
  /-- The exponent, zero when none is written. -/
  exponent : Int
  /-- Whether the number has neither fraction nor exponent. -/
  plain : Bool
  deriving DecidableEq, Repr

/-- Reads the exponent at the end of a number. -/
def exponent? : List Char → Option (Option Int)
  | [] => some none
  | letter :: rest =>
      if letter = 'e' ∨ letter = 'E' then
        let (negative, digits) := match rest with
          | '-' :: ds => (true, ds)
          | '+' :: ds => (false, ds)
          | ds => (false, ds)
        if digits.isEmpty || !digits.all Decimal.isDigit then none
        else
          let magnitude : Int := Decimal.ofDigits digits
          some (some (if negative then -magnitude else magnitude))
      else none

/-- Reads the fraction and what follows it.  A point wants a digit after it. -/
def fraction? : List Char → Option (List Char × List Char)
  | '.' :: rest =>
      let (digits, after) := Decimal.spanDigits rest
      if digits.isEmpty then none else some (digits, after)
  | cs => some ([], cs)

/-- Reads a number.  Its whole part has no leading zero unless it is zero. -/
def Spelling.read? (cs : List Char) : Option Spelling :=
  let (negative, unsigned) := match cs with
    | '-' :: rest => (true, rest)
    | rest => (false, rest)
  let (whole, afterWhole) := Decimal.spanDigits unsigned
  if whole.isEmpty || (1 < whole.length && whole.head? == some '0') then none
  else do
    let (fraction, afterFraction) ← fraction? afterWhole
    let exponent ← exponent? afterFraction
    some ⟨negative, whole, fraction, exponent.getD 0, fraction.isEmpty && exponent.isNone⟩

/-! ## Value -/

/-- Appends digits to a number as long as 64 bits hold it: the number and the digits left over. -/
def gather : Nat → List Char → Nat × List Char
  | value, [] => (value, [])
  | value, c :: rest =>
      let next := value * 10 + (Decimal.digit? c).getD 0
      if next < UInt64.size then gather next rest else (value, c :: rest)

/-- The double of a power of ten up to `10 ^ 308`. -/
def powerOfTen (n : Nat) : Float :=
  Float.ofScientific 1 false n

/-- A 64-bit number scaled by a power of ten; nothing when it leaves the range of doubles. -/
def scale? (significand : Nat) (exponent : Int) : Option Float :=
  let value := significand.toUInt64.toFloat
  if significand = 0 then some 0
  else if 308 < exponent then none
  else if 0 ≤ exponent then
    let scaled := value * powerOfTen exponent.toNat
    if scaled.isInf then none else some scaled
  else if -308 ≤ exponent then some (value / powerOfTen (-exponent).toNat)
  else if -616 ≤ exponent then
    some (value / powerOfTen 308 / powerOfTen (-exponent - 308).toNat)
  else some 0

/-- The double of a number. -/
def Spelling.double? (spelling : Spelling) : Option Float :=
  let (whole, beyond) := gather 0 spelling.whole
  let (significand, dropped) := gather whole spelling.fraction
  let taken := spelling.fraction.length - dropped.length
  let exponent := (beyond.length : Int) - taken + spelling.exponent
  (scale? significand exponent).map fun x => if spelling.negative then -x else x

/-- The value of a number.  The integer zero has no sign, so a negative zero is a double. -/
def Spelling.value? (spelling : Spelling) : Option Json :=
  let whole := Decimal.ofDigits spelling.whole
  if spelling.plain && !spelling.negative && whole < UInt64.size then some (.integer whole)
  else if spelling.plain && spelling.negative && 0 < whole && whole ≤ Decimal.int64Bound then
    some (.integer (-(whole : Int)))
  else spelling.double?.map .double

/-! ## Text -/

/-- The digits of a number with its point at the right place.  A number from `10 ^ -5` to below
`10 ^ 16` is written without exponent and with at least one digit on either side of the point; every
other one with a single digit before the point and a signed exponent. -/
def scaledText (decimal : Decimal.Scaled) : List Char :=
  let digits := Nat.toDigits 10 decimal.digits
  let point : Int := digits.length + decimal.exponent
  if decimal.digits = 0 then ['0', '.', '0']
  else if 16 < point ∨ point ≤ -5 then
    let sign := if 0 < point - 1 then '+' else '-'
    let mantissa := match digits with
      | [] => []
      | [d] => [d]
      | d :: ds => d :: '.' :: ds
    mantissa ++ 'e' :: sign :: Nat.toDigits 10 (point - 1).natAbs
  else if point ≤ 0 then
    '0' :: '.' :: List.replicate (-point).toNat '0' ++ digits
  else if 0 ≤ decimal.exponent then
    digits ++ List.replicate decimal.exponent.toNat '0' ++ ['.', '0']
  else digits.take point.toNat ++ '.' :: digits.drop point.toNat

/-- The text of a double: the fewest digits that stand for it.  What is not finite has no number
and is written as `null`. -/
def doubleText (x : Float) : List Char :=
  match Decimal.Binary.ofFloat? x with
  | none => "null".toList
  | some binary =>
      let text := scaledText (Decimal.shortest binary.significand binary.exponent)
      if binary.negative then '-' :: text else text

/-- The text of an integer. -/
def integerText : Int → List Char
  | .ofNat n => Nat.toDigits 10 n
  | .negSucc n => '-' :: Nat.toDigits 10 (n + 1)

end JobGraph.Json
