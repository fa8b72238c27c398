import JobGraph.Toml.Scalar

/-!
# Reading TOML

A TOML document is read line by line: headers open tables, and every other line adds a value under a
key to the table that is open.
-/

namespace JobGraph.Toml

/-- Arrays and inline tables may be nested less deep than this, and a dotted key has fewer parts. -/
def nestingLimit : Nat := 80

/-! ## Keys -/

/-- Whether a character may stand in a key without quotes. -/
def isBareKeyPart (c : Char) : Bool :=
  c.isAlphanum || c = '-' || c = '_'

/-- One part of a key. -/
def keyPart? (cs : List Char) : Option (String × List Char) :=
  match cs with
  | [] => none
  | c :: rest =>
      if c = '"' then basicString? (rest.length + 1) [] rest
      else if c = singleQuote then literalString? singleQuote rest
      else
        let (part, after) := cs.span isBareKeyPart
        if part.isEmpty then none else some (String.ofList part, after)

/-- The parts of a key with the spaces around them.  The fuel bounds their number. -/
def keyParts? : Nat → List Char → Option (List String × List Char)
  | 0, _ => none
  | fuel + 1, cs => do
      let (part, rest) ← keyPart? (skipSpaces cs)
      match skipSpaces rest with
      | '.' :: further => do
          let (parts, after) ← keyParts? fuel further
          some (part :: parts, after)
      | after => some ([part], after)

/-- A key, which may have dots. -/
def key? (cs : List Char) : Option (List String × List Char) :=
  keyParts? (nestingLimit - 1) cs

/-! ## Values -/

/-- What follows spaces, line ends and comments. -/
def skipBlanks : Nat → List Char → List Char
  | 0, cs => cs
  | fuel + 1, cs =>
      match skipLines cs with
      | '#' :: rest =>
          let after := rest.dropWhile isPlain
          if after.isEmpty || (newline? after).isSome then skipBlanks fuel after else after
      | rest => rest

/-- What follows spaces, line ends and comments, however many there are. -/
def skipAllBlanks (cs : List Char) : List Char :=
  skipBlanks (cs.length + 1) cs

/-- A value that holds no others. -/
def scalar? (cs : List Char) : Option (Item × List Char) :=
  match cs with
  | [] => none
  | c :: _ =>
      if c = '"' || c = singleQuote then
        (string? cs).map fun read => (.string read.1, read.2)
      else if c.isDigit || c = '+' || c = '-' then (dateTime? cs).or (number? cs)
      else
        let (word, rest) := cs.span Char.isAlphanum
        if word = "true".toList then some (.boolean true, rest)
        else if word = "false".toList then some (.boolean false, rest)
        else (specialFloat? word).map fun x => (.float x, rest)

mutual

/-- A value inside so many others.  The fuel bounds the number of steps. -/
def value? : Nat → Nat → List Char → Option (Item × List Char)
  | 0, _, _ => none
  | fuel + 1, depth, cs =>
      match cs with
      | '[' :: rest =>
          if nestingLimit ≤ depth + 1 then none
          else (items? fuel (depth + 1) (skipAllBlanks rest)).map fun read =>
            (.array read.1, read.2)
      | '{' :: rest =>
          if nestingLimit ≤ depth + 1 then none
          else match skipSpaces rest with
            | '}' :: after => some (.table .inlined [], after)
            | inner => (pairs? fuel (depth + 1) [] inner).map fun read =>
                (.table .inlined read.1, read.2)
      | cs => scalar? cs

/-- The items of an array from one on, and its end.  A comma may stand behind the last one. -/
def items? : Nat → Nat → List Char → Option (List Item × List Char)
  | 0, _, _ => none
  | fuel + 1, depth, cs =>
      match cs with
      | ']' :: rest => some ([], rest)
      | cs => do
          let (item, rest) ← value? fuel depth cs
          match skipAllBlanks rest with
          | ',' :: further => do
              let (items, after) ← items? fuel depth (skipAllBlanks further)
              some (item :: items, after)
          | ']' :: after => some ([item], after)
          | _ => none

/-- The members of an inline table from one on, and its end. -/
def pairs? : Nat → Nat → Members → List Char → Option (Members × List Char)
  | 0, _, _, _ => none
  | fuel + 1, depth, members, cs => do
      let (keys, rest) ← key? cs
      let rest ← mark? '=' rest
      let (item, rest) ← value? fuel depth (skipSpaces rest)
      let (path, key) ← splitLast keys
      let members ← addDotted path key item members
      match skipSpaces rest with
      | ',' :: further => pairs? fuel depth members further
      | '}' :: after => some (members, after)
      | _ => none

end

/-! ## Lines -/

/-- The line that adds a value. -/
def valueLine? (draft : Draft) (cs : List Char) : Option (Draft × List Char) := do
  let (keys, rest) ← key? cs
  let rest := skipSpaces (← mark? '=' rest)
  let (item, rest) ← value? (2 * rest.length + 2) 0 rest
  let rest ← lineEnd? rest
  some (← draft.addLine keys item, rest)

/-- The line of a header, after its first bracket. -/
def headerLine? (draft : Draft) (cs : List Char) : Option (Draft × List Char) :=
  match cs with
  | '[' :: rest => do
      let (keys, rest) ← key? rest
      let rest ← lineEnd? (← mark? ']' (← mark? ']' rest))
      some (← draft.openArrayItem keys, rest)
  | cs => do
      let (keys, rest) ← key? cs
      let rest ← lineEnd? (← mark? ']' rest)
      some (← draft.openTable keys, rest)

/-- All lines of a document.  The fuel bounds their number. -/
def lines? : Nat → Draft → List Char → Option Members
  | 0, _, _ => none
  | fuel + 1, draft, cs =>
      match skipSpaces cs with
      | [] => draft.settle
      | '#' :: rest => do lines? fuel draft (← lineEnd? ('#' :: rest))
      | '[' :: rest => do
          let (draft, rest) ← headerLine? draft rest
          lines? fuel draft rest
      | cs =>
          match newline? cs with
          | some rest => lines? fuel draft rest
          | none => do
              let (draft, rest) ← valueLine? draft cs
              lines? fuel draft rest

/-- The byte order mark. -/
def byteOrderMark : Char := Char.ofNat 0xFEFF

/-- The members of the table that a document is; a byte order mark at its start is passed over. -/
def read? (text : String) : Option Members :=
  let cs := text.toList
  let body := if cs.head? = some byteOrderMark then cs.tail else cs
  lines? (body.length + 1) .start body

end JobGraph.Toml
