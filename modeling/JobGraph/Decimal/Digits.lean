/-!
# Decimal digits

Runs of ASCII digits and the integers they spell, with a bound that the integer must not exceed.
-/

namespace JobGraph.Decimal

/-- The value of an ASCII digit. -/
def digit? (c : Char) : Option Nat :=
  if '0' ≤ c ∧ c ≤ '9' then some (c.toNat - '0'.toNat) else none

/-- Whether a character is an ASCII digit. -/
def isDigit (c : Char) : Bool :=
  (digit? c).isSome

/-- The value of a run of digits; other characters count as zero. -/
def ofDigits (cs : List Char) : Nat :=
  cs.foldl (fun value c => value * 10 + (digit? c).getD 0) 0

/-- The longest run of digits at the start of a text, and what follows it. -/
def spanDigits (cs : List Char) : List Char × List Char :=
  cs.span isDigit

/-- The natural numbers below this are integers of 64 bits, and so are their negatives and its own:
2 to the 63. -/
def int64Bound : Nat := 0x8000000000000000

/-- Why a text is not an integer within its bound. -/
inductive IntegerError where
  | empty
  | invalidDigit
  | tooLarge
  deriving DecidableEq, Repr

/-- The text of the error. -/
def IntegerError.message : IntegerError → String
  | .empty => "cannot parse integer from empty string"
  | .invalidDigit => "invalid digit found in string"
  | .tooLarge => "number too large to fit in target type"

/-- Reads further digits after `value`.  The first fault from the left is the one reported. -/
def readDigits (bound : Nat) : Nat → List Char → Except IntegerError Nat
  | value, [] => .ok value
  | value, c :: rest =>
      match digit? c with
      | none => .error .invalidDigit
      | some d =>
          if value * 10 + d ≤ bound then readDigits bound (value * 10 + d) rest
          else .error .tooLarge

/-- Reads a natural number up to `bound`, with an optional plus sign. -/
def readNat (bound : Nat) : List Char → Except IntegerError Nat
  | [] => .error .empty
  | ['+'] => .error .invalidDigit
  | '+' :: rest => readDigits bound 0 rest
  | cs => readDigits bound 0 cs

/-- Reads an integer of 64 bits, with an optional sign. -/
def readInt64 : List Char → Except IntegerError Int
  | ['-'] => .error .invalidDigit
  | '-' :: rest => (readDigits int64Bound 0 rest).map fun n => -(n : Int)
  | cs => (readNat (int64Bound - 1) cs).map Int.ofNat

/-- What the digits spell stays within the bound. -/
theorem readDigits_le {bound value n : Nat} {cs : List Char} (hvalue : value ≤ bound)
    (h : readDigits bound value cs = .ok n) : n ≤ bound := by
  fun_induction readDigits bound value cs with
  | case1 value =>
      cases h
      exact hvalue
  | case2 => cases h
  | case3 value c rest d hd hle ih => exact ih hle h
  | case4 => cases h

end JobGraph.Decimal
