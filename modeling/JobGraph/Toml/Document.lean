import JobGraph.Json.Decoding
import JobGraph.Toml.Table

/-!
# TOML tables as documents

The values of TOML are values of JSON but for dates, so records are read out of both in the same
way.  A date is shown as an object with a single member under a name that no record has.
-/

namespace JobGraph.Toml

open Json (Document)

/-- The name of the member that a date has. -/
def dateMember : String := "$date"

mutual

/-- A value as a document. -/
def Item.document : Item → Document
  | .string value => .string value
  | .integer value => .integer value
  | .float value => .double value
  | .boolean value => .bool value
  | .dateTime => .object [(dateMember, .null)]
  | .array items => .array (itemDocuments items)
  | .tables reversed => .array (tableDocuments reversed).reverse
  | .table _ members => .object (memberDocuments members)

/-- The values of an array as documents. -/
def itemDocuments : List Item → List Document
  | [] => []
  | item :: rest => item.document :: itemDocuments rest

/-- The tables of an array of tables as documents. -/
def tableDocuments : List (List (String × Item)) → List Document
  | [] => []
  | members :: rest => .object (memberDocuments members) :: tableDocuments rest

/-- The members of a table as documents. -/
def memberDocuments : List (String × Item) → List (String × Document)
  | [] => []
  | (key, item) :: rest => (key, item.document) :: memberDocuments rest

end

/-! ## Records and constants -/

/-- The fields of a record; in an array what follows the last field is passed over. -/
def fields? (names : List String) : Document → Option (List (Option Document))
  | .array items => Document.fields? names (.array (items.take names.length))
  | document => Document.fields? names document

/-- The name of a constant: a string, or a table whose one member has that name and is an empty
table or array. -/
def constant? : Document → Option String
  | .string name => some name
  | .object [(name, .object [])] | .object [(name, .array [])] => some name
  | _ => none

end JobGraph.Toml
