import JobGraph.Decimal.Reading
import JobGraph.Toml.Table

/-!
# TOML strings, numbers and dates

The values of a TOML document that hold no others.  Each reader takes its value from the start of
the text and gives back what follows.
-/

namespace JobGraph.Toml

/-! ## Characters -/

/-- Whether a character is a space or a tab. -/
def isSpace (c : Char) : Bool :=
  c = ' ' || c = '\t'

/-- Whether a character may stand in a comment or a string as it is: no control character but the
tab. -/
def isPlain (c : Char) : Bool :=
  c = '\t' || (0x20 ≤ c.toNat && c.toNat != 0x7F)

/-- What follows spaces and tabs. -/
def skipSpaces (cs : List Char) : List Char :=
  cs.dropWhile isSpace

/-- What follows a line end; a return must have a line feed behind it. -/
def newline? : List Char → Option (List Char)
  | '\n' :: rest => some rest
  | '\r' :: '\n' :: rest => some rest
  | _ => none

/-- What follows spaces, tabs and line ends. -/
def skipLines : List Char → List Char
  | [] => []
  | '\r' :: '\n' :: rest => skipLines rest
  | c :: rest => if isSpace c || c = '\n' then skipLines rest else c :: rest

/-- What follows a comment, if one starts here. -/
def skipComment : List Char → List Char
  | '#' :: rest => rest.dropWhile isPlain
  | cs => cs

/-- What follows the end of a line, spaces and a comment before it included. -/
def lineEnd? (cs : List Char) : Option (List Char) :=
  match skipComment (skipSpaces cs) with
  | [] => some []
  | rest => newline? rest

/-! ## Strings -/

/-- The value of a hexadecimal digit. -/
def hexDigit? (c : Char) : Option Nat :=
  if '0' ≤ c ∧ c ≤ '9' then some (c.toNat - '0'.toNat)
  else if 'a' ≤ c ∧ c ≤ 'f' then some (c.toNat - 'a'.toNat + 10)
  else if 'A' ≤ c ∧ c ≤ 'F' then some (c.toNat - 'A'.toNat + 10)
  else none

/-- The character of a code point in so many hexadecimal digits. -/
def codePoint? (digits : Nat) (cs : List Char) : Option (Char × List Char) := do
  let code := cs.take digits
  if code.length < digits then none
  else
    let values ← code.mapM hexDigit?
    let n := values.foldl (fun n d => n * 16 + d) 0
    if n.isValidChar then some (Char.ofNat n, cs.drop digits) else none

/-- The character that follows a backslash stands for. -/
def escape? : List Char → Option (Char × List Char)
  | 'b' :: rest => some (Char.ofNat 8, rest)
  | 't' :: rest => some ('\t', rest)
  | 'n' :: rest => some ('\n', rest)
  | 'f' :: rest => some (Char.ofNat 12, rest)
  | 'r' :: rest => some ('\r', rest)
  | '"' :: rest => some ('"', rest)
  | '\\' :: rest => some ('\\', rest)
  | 'u' :: rest => codePoint? 4 rest
  | 'U' :: rest => codePoint? 8 rest
  | _ => none

/-- The rest of a string on one line after its double quote.  The fuel bounds its length. -/
def basicString? : Nat → List Char → List Char → Option (String × List Char)
  | 0, _, _ => none
  | fuel + 1, reversed, cs =>
      match cs with
      | [] => none
      | '"' :: rest => some (String.ofList reversed.reverse, rest)
      | '\\' :: rest => do
          let (c, rest) ← escape? rest
          basicString? fuel (c :: reversed) rest
      | c :: rest => if isPlain c then basicString? fuel (c :: reversed) rest else none

/-- The rest of a literal string on one line after its single quote. -/
def literalString? (quote : Char) (cs : List Char) : Option (String × List Char) :=
  let (body, rest) := cs.span fun c => c != quote && isPlain c
  match rest with
  | c :: rest => if c = quote then some (String.ofList body, rest) else none
  | [] => none

/-- How many quotes a text starts with. -/
def quoteRun (quote : Char) (cs : List Char) : Nat :=
  (cs.takeWhile (· == quote)).length

/-- The rest of a string over several lines after its three quotes.  One or two quotes are part of
it, and so are up to two before the three at its end.  A line end is a line feed; with escapes, a
backslash at the end of a line swallows all blanks up to the next character. -/
def multiLineString? (quote : Char) (escapes : Bool) :
    Nat → List Char → List Char → Option (String × List Char)
  | 0, _, _ => none
  | fuel + 1, reversed, cs =>
      match cs with
      | [] => none
      | c :: rest =>
          if c = quote then
            let run := quoteRun quote cs
            if run < 3 then multiLineString? quote escapes fuel (c :: reversed) rest
            else
              let kept := min (run - 3) 2
              some (String.ofList (List.replicate kept quote ++ reversed).reverse,
                cs.drop (kept + 3))
          else if escapes && c = '\\' then
            match newline? (skipSpaces rest) with
            | some below => multiLineString? quote escapes fuel reversed (skipLines below)
            | none => do
                let (e, rest) ← escape? rest
                multiLineString? quote escapes fuel (e :: reversed) rest
          else match newline? cs with
            | some below => multiLineString? quote escapes fuel ('\n' :: reversed) below
            | none =>
                if isPlain c then multiLineString? quote escapes fuel (c :: reversed) rest else none

/-- The single quote. -/
def singleQuote : Char := Char.ofNat 0x27

/-- A text without the line end at its start. -/
def dropNewline (cs : List Char) : List Char :=
  (newline? cs).getD cs

/-- A string of one of the four kinds. -/
def string? (cs : List Char) : Option (String × List Char) :=
  let fuel := cs.length + 1
  match cs with
  | '"' :: '"' :: '"' :: rest => multiLineString? '"' true fuel [] (dropNewline rest)
  | '"' :: rest => basicString? fuel [] rest
  | c :: rest =>
      if c = singleQuote then
        if quoteRun singleQuote cs ≥ 3 then
          multiLineString? singleQuote false fuel [] (dropNewline (cs.drop 3))
        else literalString? singleQuote rest
      else none
  | [] => none

/-! ## Numbers -/

/-- The digits of a run in which single underscores may stand between digits. -/
def groupedDigits? (accepts : Char → Bool) : List Char → Option (List Char)
  | [] => none
  | [c] => if accepts c then some [c] else none
  | c :: '_' :: rest =>
      if accepts c then (groupedDigits? accepts rest).map (c :: ·) else none
  | c :: rest => if accepts c then (groupedDigits? accepts rest).map (c :: ·) else none

/-- Splits an optional sign off a text: whether it is a minus, and the rest. -/
def splitSign : List Char → Bool × List Char
  | '-' :: rest => (true, rest)
  | '+' :: rest => (false, rest)
  | cs => (false, cs)

/-- Digits without a leading zero, unless zero is all there is. -/
def wholeDigits? (cs : List Char) : Option (List Char) := do
  let digits ← groupedDigits? Decimal.isDigit cs
  if digits.head? = some '0' ∧ 1 < cs.length then none else some digits

/-- An integer in decimal digits. -/
def decimalInteger? (cs : List Char) : Option Int := do
  let (negative, unsigned) := splitSign cs
  let n := Decimal.ofDigits (← wholeDigits? unsigned)
  if negative then if n ≤ Decimal.int64Bound then some (-(n : Int)) else none
  else if n < Decimal.int64Bound then some n else none

/-- An integer in the digits of another base. -/
def basedInteger? (base : Nat) (cs : List Char) : Option Int := do
  let digits ← groupedDigits? (fun c => (hexDigit? c).any fun d => d < base) cs
  let n := digits.foldl (fun n c => n * base + (hexDigit? c).getD 0) 0
  if n < Decimal.int64Bound then some n else none

/-- An integer of 64 bits. -/
def integer? : List Char → Option Int
  | '0' :: 'x' :: rest => basedInteger? 16 rest
  | '0' :: 'o' :: rest => basedInteger? 8 rest
  | '0' :: 'b' :: rest => basedInteger? 2 rest
  | cs => decimalInteger? cs

/-- The words for infinity and for not-a-number. -/
def specialFloat? (cs : List Char) : Option Float :=
  let (negative, word) := splitSign cs
  if word = "inf".toList then some (if negative then -(1 / 0) else 1 / 0)
  else if word = "nan".toList then some (0 / 0)
  else none

/-- Whether the text is an exponent behind its letter. -/
def isExponent (cs : List Char) : Bool :=
  (groupedDigits? Decimal.isDigit (splitSign cs).2).isSome

/-- Whether a character begins an exponent. -/
def isExponentLetter (c : Char) : Bool :=
  c = 'e' || c = 'E'

/-- A number with a fraction, an exponent or both.  A positive one beyond the range of doubles is
refused. -/
def decimalFloat? (cs : List Char) : Option Float := do
  let (mantissa, exponent) := (splitSign cs).2.span fun c => !isExponentLetter c
  let (whole, fraction) := mantissa.span fun c => c != '.'
  let _ ← wholeDigits? whole
  let goodFraction := fraction.isEmpty || (groupedDigits? Decimal.isDigit fraction.tail).isSome
  let goodExponent := exponent.isEmpty || isExponent exponent.tail
  if (fraction.isEmpty && exponent.isEmpty) || !goodFraction || !goodExponent then none
  else
    let x ← Decimal.readFloat? (cs.filter fun c => c != '_')
    if x.isInf && 0 < x then none else some x

/-- Whether a character may occur in a number. -/
def isNumberPart (c : Char) : Bool :=
  c.isAlphanum || c = '_' || c = '+' || c = '-' || c = '.'

/-- A number: an integer or a float. -/
def number? (cs : List Char) : Option (Item × List Char) :=
  let (word, rest) := cs.span isNumberPart
  match integer? word with
  | some n => some (.integer n, rest)
  | none => ((specialFloat? word).or (decimalFloat? word)).map fun x => (.float x, rest)

/-! ## Dates and times -/

/-- The value of exactly so many digits. -/
def fixedDigits? (count : Nat) (cs : List Char) : Option (Nat × List Char) :=
  let digits := cs.take count
  if digits.length = count && digits.all Decimal.isDigit then
    some (Decimal.ofDigits digits, cs.drop count)
  else none

/-- What follows a mark. -/
def mark? (mark : Char) : List Char → Option (List Char)
  | c :: rest => if c = mark then some rest else none
  | [] => none

/-- How many days a month has. -/
def daysIn (year month : Nat) : Nat :=
  if month = 2 then if year % 4 = 0 ∧ (year % 100 ≠ 0 ∨ year % 400 = 0) then 29 else 28
  else if month = 4 ∨ month = 6 ∨ month = 9 ∨ month = 11 then 30
  else 31

/-- What follows a date. -/
def date? (cs : List Char) : Option (List Char) := do
  let (year, cs) ← fixedDigits? 4 cs
  let (month, cs) ← fixedDigits? 2 (← mark? '-' cs)
  let (day, cs) ← fixedDigits? 2 (← mark? '-' cs)
  if 1 ≤ month ∧ month ≤ 12 ∧ 1 ≤ day ∧ day ≤ daysIn year month then some cs else none

/-- What follows a fraction of a second, if one starts here. -/
def skipFraction : List Char → List Char
  | '.' :: rest =>
      let after := rest.dropWhile Decimal.isDigit
      if after.length = rest.length then '.' :: rest else after
  | cs => cs

/-- What follows a time of day. -/
def time? (cs : List Char) : Option (List Char) := do
  let (hour, cs) ← fixedDigits? 2 cs
  let (minute, cs) ← fixedDigits? 2 (← mark? ':' cs)
  let (second, cs) ← fixedDigits? 2 (← mark? ':' cs)
  if hour ≤ 23 ∧ minute ≤ 59 ∧ second ≤ 60 then some (skipFraction cs) else none

/-- What follows the distance to universal time. -/
def offset? : List Char → Option (List Char)
  | 'Z' :: rest | 'z' :: rest => some rest
  | '+' :: rest | '-' :: rest => do
      let (hour, cs) ← fixedDigits? 2 rest
      let (minute, cs) ← fixedDigits? 2 (← mark? ':' cs)
      if hour ≤ 23 ∧ minute ≤ 59 then some cs else none
  | _ => none

/-- What follows the time behind a date, if one is there. -/
def skipTimeOfDate (cs : List Char) : List Char :=
  match cs with
  | c :: rest =>
      if c = 'T' ∨ c = 't' ∨ c = ' ' then
        match time? rest with
        | some after => (offset? after).getD after
        | none => cs
      else cs
  | [] => []

/-- A date, a time or both. -/
def dateTime? (cs : List Char) : Option (Item × List Char) :=
  match date? cs with
  | some rest => some (.dateTime, skipTimeOfDate rest)
  | none => (time? cs).map fun rest => (.dateTime, rest)

end JobGraph.Toml
