import JobGraph.Json.Number

/-!
# JSON texts

The two texts of a value: the compact one without any space, and the indented one with one item or
member a line and two spaces for each level.  Members are written in the order in which the object
holds them; an empty array or object takes no line of its own.
-/

namespace JobGraph.Json

/-- One character of a string.  Quotes, backslashes and control characters are escaped, and nothing
else. -/
def escapeChar (c : Char) : List Char :=
  if c = '"' then ['\\', '"']
  else if c = '\\' then ['\\', '\\']
  else if c = '\n' then ['\\', 'n']
  else if c = '\r' then ['\\', 'r']
  else if c = '\t' then ['\\', 't']
  else if c.toNat = 8 then ['\\', 'b']
  else if c.toNat = 12 then ['\\', 'f']
  else if c.toNat < 0x20 then
    ['\\', 'u', '0', '0', Nat.digitChar (c.toNat / 16), Nat.digitChar (c.toNat % 16)]
  else [c]

/-- A string between double quotes. -/
def stringText (s : String) : List Char :=
  '"' :: s.toList.flatMap escapeChar ++ ['"']

/-! ## Compact text -/

mutual

/-- The characters of the compact text. -/
def compactChars : Json → List Char
  | .null => "null".toList
  | .bool true => "true".toList
  | .bool false => "false".toList
  | .integer n => integerText n
  | .double x => doubleText x
  | .string s => stringText s
  | .array [] => ['[', ']']
  | .array (item :: rest) => '[' :: item.compactChars ++ compactItems rest
  | .object [] => ['{', '}']
  | .object ((name, value) :: rest) =>
      '{' :: stringText name ++ ':' :: value.compactChars ++ compactMembers rest

/-- Further items of an array, and its end. -/
def compactItems : List Json → List Char
  | [] => [']']
  | item :: rest => ',' :: item.compactChars ++ compactItems rest

/-- Further members of an object, and its end. -/
def compactMembers : List (String × Json) → List Char
  | [] => ['}']
  | (name, value) :: rest =>
      ',' :: stringText name ++ ':' :: value.compactChars ++ compactMembers rest

end

/-- The compact text of a value. -/
def compact (value : Json) : String :=
  String.ofList value.compactChars

/-! ## Indented text -/

/-- The start of a line at a level. -/
def newLine (level : Nat) : List Char :=
  '\n' :: List.replicate (2 * level) ' '

mutual

/-- The characters of the indented text of a value at a level. -/
def indentedChars (level : Nat) : Json → List Char
  | .array (item :: rest) =>
      '[' :: newLine (level + 1) ++ indentedChars (level + 1) item ++ indentedItems level rest
  | .object ((name, value) :: rest) =>
      '{' :: newLine (level + 1) ++ stringText name ++ ':' :: ' ' ::
        indentedChars (level + 1) value ++ indentedMembers level rest
  | .null => "null".toList
  | .bool true => "true".toList
  | .bool false => "false".toList
  | .integer n => integerText n
  | .double x => doubleText x
  | .string s => stringText s
  | .array [] => ['[', ']']
  | .object [] => ['{', '}']

/-- Further items of an array that stands at a level, and its end. -/
def indentedItems (level : Nat) : List Json → List Char
  | [] => newLine level ++ [']']
  | item :: rest =>
      ',' :: newLine (level + 1) ++ indentedChars (level + 1) item ++ indentedItems level rest

/-- Further members of an object that stands at a level, and its end. -/
def indentedMembers (level : Nat) : List (String × Json) → List Char
  | [] => newLine level ++ ['}']
  | (name, value) :: rest =>
      ',' :: newLine (level + 1) ++ stringText name ++ ':' :: ' ' ::
        indentedChars (level + 1) value ++ indentedMembers level rest

end

/-- The indented text of a value. -/
def indented (value : Json) : String :=
  String.ofList (value.indentedChars 0)

end JobGraph.Json
