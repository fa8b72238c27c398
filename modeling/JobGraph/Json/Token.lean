import JobGraph.Json.Number

/-!
# JSON tokens

The tokens of a JSON text.  The scanner reads one character at a time and keeps what it has read of
the current token as its state, so it is a recursion on the text.

A number and a string can be well formed and still have no value: a number beyond the range of
doubles, a string with half of a surrogate pair.  Their tokens say so, since only a reader who asks
for the value is to fail.
-/

namespace JobGraph.Json

/-- A token of a JSON text. -/
inductive Token where
  | openBracket
  | closeBracket
  | openBrace
  | closeBrace
  | colon
  | comma
  | null
  | bool (value : Bool)
  /-- A number with its value, if it has one. -/
  | number (value : Option Json)
  /-- A string with its text, if it has one. -/
  | string (text : Option String)
  deriving DecidableEq, Inhabited

/-! ## Characters of a string -/

/-- Whether a code unit is the first half of a surrogate pair. -/
def isHighSurrogate (n : Nat) : Bool :=
  0xD800 ≤ n && n < 0xDC00

/-- Whether a code unit is the second half of a surrogate pair. -/
def isLowSurrogate (n : Nat) : Bool :=
  0xDC00 ≤ n && n < 0xE000

/-- The characters of a list of code points in which escapes may have left surrogate pairs. -/
def joinSurrogates : List Nat → Option (List Char)
  | [] => some []
  | [n] => if isHighSurrogate n || isLowSurrogate n then none else some [Char.ofNat n]
  | n :: m :: rest =>
      if isHighSurrogate n then
        if isLowSurrogate m then
          (joinSurrogates rest).map
            (Char.ofNat (0x10000 + (n - 0xD800) * 0x400 + (m - 0xDC00)) :: ·)
        else none
      else if isLowSurrogate n then none
      else (joinSurrogates (m :: rest)).map (Char.ofNat n :: ·)

/-- The character that a backslash and a letter stand for. -/
def escaped? (c : Char) : Option Char :=
  if c = '"' then some '"'
  else if c = '\\' then some '\\'
  else if c = '/' then some '/'
  else if c = 'b' then some (Char.ofNat 8)
  else if c = 'f' then some (Char.ofNat 12)
  else if c = 'n' then some '\n'
  else if c = 'r' then some '\r'
  else if c = 't' then some '\t'
  else none

/-- The value of a hexadecimal digit. -/
def hexDigit? (c : Char) : Option Nat :=
  if '0' ≤ c ∧ c ≤ '9' then some (c.toNat - '0'.toNat)
  else if 'a' ≤ c ∧ c ≤ 'f' then some (c.toNat - 'a'.toNat + 10)
  else if 'A' ≤ c ∧ c ≤ 'F' then some (c.toNat - 'A'.toNat + 10)
  else none

/-! ## The scanner -/

/-- The four characters that may stand between tokens. -/
def isSpace (c : Char) : Bool :=
  c = ' ' || c = '\n' || c = '\t' || c = '\r'

/-- The token of a punctuation mark. -/
def punctuation? (c : Char) : Option Token :=
  if c = '[' then some .openBracket
  else if c = ']' then some .closeBracket
  else if c = '{' then some .openBrace
  else if c = '}' then some .closeBrace
  else if c = ':' then some .colon
  else if c = ',' then some .comma
  else none

/-- Whether a character may occur in a number. -/
def isNumberPart (c : Char) : Bool :=
  Decimal.isDigit c || c = '+' || c = '-' || c = '.' || c = 'e' || c = 'E'

/-- Whether a number may begin with this character. -/
def isNumberStart (c : Char) : Bool :=
  Decimal.isDigit c || c = '-'

/-- Whether a character is a lower-case letter, the only kind in the three words of JSON. -/
def isWordPart (c : Char) : Bool :=
  'a' ≤ c && c ≤ 'z'

/-- The token of one of the three words. -/
def word? (letters : List Char) : Option Token :=
  if letters = "null".toList then some .null
  else if letters = "true".toList then some (.bool true)
  else if letters = "false".toList then some (.bool false)
  else none

/-- The token of a number. -/
def number? (characters : List Char) : Option Token :=
  (Spelling.read? characters).map fun spelling => .number spelling.value?

/-- What the scanner is in the middle of; what it has read of a token stands in reverse. -/
inductive Scan where
  | between
  | word (letters : List Char)
  | number (characters : List Char)
  | text (points : List Nat)
  | escape (points : List Nat)
  /-- Inside the four digits of a code unit: how many are still to come, and their value so far. -/
  | unit (points : List Nat) (remaining : Nat) (value : Nat)
  deriving Inhabited

/-- The scanner between two tokens, or in a fresh one, after a character. -/
def Scan.start (c : Char) : Option (List Token × Scan) :=
  if isSpace c then some ([], .between)
  else if c = '"' then some ([], .text [])
  else if isNumberStart c then some ([], .number [c])
  else if isWordPart c then some ([], .word [c])
  else (punctuation? c).map fun token => ([token], .between)

/-- The tokens that one more character completes, and the state after it. -/
def Scan.next (scan : Scan) (c : Char) : Option (List Token × Scan) :=
  match scan with
  | .between => Scan.start c
  | .word letters =>
      if isWordPart c then some ([], .word (c :: letters))
      else do
        let token ← word? letters.reverse
        let (tokens, after) ← Scan.start c
        some (token :: tokens, after)
  | .number characters =>
      if isNumberPart c then some ([], .number (c :: characters))
      else do
        let token ← number? characters.reverse
        let (tokens, after) ← Scan.start c
        some (token :: tokens, after)
  | .text points =>
      if c = '"' then
        some ([.string ((joinSurrogates points.reverse).map String.ofList)], .between)
      else if c = '\\' then some ([], .escape points)
      else if c.toNat < 0x20 then none
      else some ([], .text (c.toNat :: points))
  | .escape points =>
      if c = 'u' then some ([], .unit points 4 0)
      else (escaped? c).map fun e => ([], .text (e.toNat :: points))
  | .unit points remaining value =>
      (hexDigit? c).map fun d =>
        if remaining ≤ 1 then ([], .text ((value * 16 + d) :: points))
        else ([], .unit points (remaining - 1) (value * 16 + d))

/-- The tokens that the end of the text completes. -/
def Scan.finish : Scan → Option (List Token)
  | .between => some []
  | .word letters => (word? letters.reverse).map ([·])
  | .number characters => (number? characters.reverse).map ([·])
  | .text _ | .escape _ | .unit _ _ _ => none

/-- The tokens of a text, from a state of the scanner on. -/
def Scan.run (scan : Scan) : List Char → Option (List Token)
  | [] => scan.finish
  | c :: rest => do
      let (tokens, after) ← scan.next c
      let further ← after.run rest
      some (tokens ++ further)

/-- The tokens of a text; nothing when it is no sequence of tokens. -/
def tokens? (cs : List Char) : Option (List Token) :=
  Scan.between.run cs

end JobGraph.Json
