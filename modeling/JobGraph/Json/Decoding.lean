import JobGraph.Json.Document

/-!
# Reading records out of documents

A record is read from an object by the names of its fields, or from an array by their order.  Names
that the record does not have are passed over, whatever their values; a name that it has must not
be repeated, and an array must not be longer than the record.
-/

namespace JobGraph.Json.Document

/-! ## Simple values -/

/-- A string. -/
def text? : Document → Option String
  | .string s => some s
  | _ => none

/-- A truth value. -/
def bool? : Document → Option Bool
  | .bool b => some b
  | _ => none

/-- A natural number up to `bound`; a double is none, even when it is whole. -/
def natural? (bound : Nat) : Document → Option Nat
  | .integer n => if 0 ≤ n ∧ n.toNat ≤ bound then some n.toNat else none
  | _ => none

/-- A natural number of 32 bits. -/
def natural32? : Document → Option Nat :=
  natural? (UInt32.size - 1)

/-- A natural number of 64 bits. -/
def natural64? : Document → Option Nat :=
  natural? (UInt64.size - 1)

/-- A signed integer of 64 bits. -/
def integer64? : Document → Option Int
  | .integer n =>
      if -Decimal.int64Bound ≤ n ∧ n < Decimal.int64Bound then some n else none
  | _ => none

/-- A double, or the double of an integer. -/
def double? : Document → Option Float
  | .double x => some x
  | .integer n => some (Float.ofInt n)
  | _ => none

/-- An array whose items are all read the same way. -/
def list? {α : Type} (item? : Document → Option α) : Document → Option (List α)
  | .array items => items.mapM item?
  | _ => none

/-- The name of a constant: a string, or an object whose one member has that name and is null. -/
def constant? : Document → Option String
  | .string name => some name
  | .object [(name, .null)] => some name
  | _ => none

/-! ## Fields of a record -/

/-- A field that must be there. -/
def required {α : Type} (read? : Document → Option α) : Option Document → Option α
  | none => none
  | some value => read? value

/-- A field that has a default. -/
def withDefault {α : Type} (default : α) (read? : Document → Option α) :
    Option Document → Option α
  | none => some default
  | some value => read? value

/-- A field that may be missing or null. -/
def nullable {α : Type} (read? : Document → Option α) : Option Document → Option (Option α)
  | none => some none
  | some .null => some none
  | some value => (read? value).map some

/-- The members of that name, in the order written. -/
def occurrences (members : List (String × Document)) (name : String) : List Document :=
  members.filterMap fun member => if member.1 = name then some member.2 else none

/-- The one member of that name, if any; a repeated name is a fault. -/
def single? (members : List (String × Document)) (name : String) : Option (Option Document) :=
  match occurrences members name with
  | [] => some none
  | [value] => some (some value)
  | _ => none

/-- The fields of an object in the order of their names. -/
def objectFields? (names : List String) (members : List (String × Document)) :
    Option (List (Option Document)) :=
  names.mapM (single? members)

/-- The fields of a record; those at the end may be missing. -/
def fields? (names : List String) : Document → Option (List (Option Document))
  | .object members => objectFields? names members
  | .array items =>
      if items.length ≤ names.length then
        some (items.map some ++ List.replicate (names.length - items.length) none)
      else none
  | _ => none

/-- The fields of a record whose array form must be complete. -/
def allFields? (names : List String) : Document → Option (List (Option Document))
  | .object members => objectFields? names members
  | .array items => if items.length = names.length then some (items.map some) else none
  | _ => none

end JobGraph.Json.Document
