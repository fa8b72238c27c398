/-!
# Shortest decimals of doubles

A double stands for every real that rounds to it.  The shortest decimal of a positive double is
the one with the fewest digits among those reals, and of two with equally few digits the one nearer
to the double; between two equally near ones the even one is taken.

All comparisons are made between natural numbers: the double, the two ends of its rounding interval
and the points of a decimal grid are brought to one denominator.
-/

namespace JobGraph.Decimal

/-- The number `digits × 10 ^ exponent`. -/
structure Scaled where
  digits : Nat
  exponent : Int
  deriving DecidableEq, Repr

/-- A finite double as a sign and `significand × 2 ^ exponent`. -/
structure Binary where
  negative : Bool
  significand : Nat
  exponent : Int
  deriving DecidableEq, Repr

/-- The leading bit of the significand of a normal double: 2 to the 52. -/
def leadingBit : Nat := 0x10000000000000

/-- The sign, significand and exponent of a finite double; nothing for the others. -/
def Binary.ofFloat? (x : Float) : Option Binary :=
  let bits : Nat := x.toBits.toNat
  let negative := decide (2048 * leadingBit ≤ bits)
  let biased : Nat := bits / leadingBit % 2048
  let fraction : Nat := bits % leadingBit
  if biased = 2047 then none
  else if biased = 0 then some ⟨negative, fraction, -1074⟩
  else some ⟨negative, leadingBit + fraction, (biased : Int) - 1075⟩

/-- The reals that round to one double, over a common denominator. -/
structure Interval where
  low : Nat
  value : Nat
  high : Nat
  denominator : Nat
  /-- Whether the two ends round to the double as well. -/
  closed : Bool
  deriving DecidableEq, Repr

/-- The reals that round to `significand × 2 ^ exponent`.  The gap below a power of two is half the
gap above it, except at the least exponent. -/
def Interval.around (significand : Nat) (exponent : Int) : Interval :=
  let scale := Nat.pow 2 (exponent - 2).toNat
  let belowGap := if significand = leadingBit ∧ -1074 < exponent then 1 else 2
  { low := (4 * significand - belowGap) * scale
    value := 4 * significand * scale
    high := (4 * significand + 2) * scale
    denominator := Nat.pow 2 (2 - exponent).toNat
    closed := significand % 2 == 0 }

/-- Whether `point / unit` lies in the interval whose numbers are multiplied by `factor`. -/
def Interval.holds (interval : Interval) (factor point : Nat) : Bool :=
  if interval.closed then
    interval.low * factor ≤ point && point ≤ interval.high * factor
  else
    interval.low * factor < point && point < interval.high * factor

/-- The point of the grid of multiples of `10 ^ exponent` that stands for the double, if one of the
two neighbours of its value does. -/
def Interval.gridPoint? (interval : Interval) (exponent : Int) : Option Nat :=
  let factor := Nat.pow 10 (-exponent).toNat
  let unit := interval.denominator * Nat.pow 10 exponent.toNat
  let below := interval.value * factor / unit
  let above := below + 1
  match interval.holds factor (below * unit), interval.holds factor (above * unit) with
  | false, false => none
  | true, false => some below
  | false, true => some above
  | true, true =>
      let toBelow := interval.value * factor - below * unit
      let toAbove := above * unit - interval.value * factor
      if toBelow < toAbove then some below
      else if toAbove < toBelow then some above
      else if below % 2 = 0 then some below
      else some above

/-- The number of decimal digits of a natural number. -/
def digitCount (n : Nat) : Nat :=
  (Nat.toDigits 10 n).length

/-- The least exponent whose power of ten exceeds `numerator / denominator`. -/
def magnitude (numerator denominator : Nat) : Int :=
  let estimate : Int := (digitCount numerator : Int) - digitCount denominator
  if numerator * Nat.pow 10 (-estimate).toNat < denominator * Nat.pow 10 estimate.toNat then estimate
  else estimate + 1

/-- A number in one digit less when its last digit is zero. -/
def Scaled.dropZero (decimal : Scaled) : Scaled :=
  if decimal.digits ≠ 0 ∧ decimal.digits % 10 = 0 then
    ⟨decimal.digits / 10, decimal.exponent + 1⟩
  else decimal

/-- The shortest decimal of `significand × 2 ^ exponent`.  Seventeen digits always suffice.  The
first grid with a point in the interval wins, so a last digit zero can only come from the point ten
of the coarsest grid. -/
def shortest (significand : Nat) (exponent : Int) : Scaled :=
  if significand = 0 then ⟨0, 0⟩
  else
    let interval := Interval.around significand exponent
    let top := magnitude interval.value interval.denominator
    let found := (List.range 17).findSome? fun count =>
      (interval.gridPoint? (top - (count + 1 : Nat))).map fun digits =>
        Scaled.dropZero ⟨digits, top - (count + 1 : Nat)⟩
    found.getD ⟨0, 0⟩

end JobGraph.Decimal
