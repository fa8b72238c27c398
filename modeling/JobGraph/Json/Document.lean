import JobGraph.Json.Fields
import JobGraph.Json.Token

/-!
# JSON documents

A document is a JSON text after its form was checked and before its values were asked for.  It
keeps the members of an object as they are written, repeated names included, and it marks the parts
that are well formed but have no value: such a part is no fault of the text unless somebody reads
it.

The parser works through the tokens with a stack of the arrays and objects that are still open.
-/

namespace JobGraph.Json

/-- A JSON text whose form is right. -/
inductive Document where
  /-- A part without a value. -/
  | unreadable
  | null
  | bool (value : Bool)
  | integer (value : Int)
  | double (value : Float)
  | string (value : String)
  | array (items : List Document)
  | object (members : List (String × Document))
  deriving Inhabited

/-- Arrays and objects may be nested this deep; what is nested deeper has no value. -/
def nestingLimit : Nat := 127

/-! ## Documents of values and values of documents -/

mutual

/-- A value as a document. -/
def document : Json → Document
  | .null => .null
  | .bool value => .bool value
  | .integer value => .integer value
  | .double value => .double value
  | .string value => .string value
  | .array items => .array (documentItems items)
  | .object members => .object (documentMembers members)

/-- The items of an array as documents. -/
def documentItems : List Json → List Document
  | [] => []
  | item :: rest => item.document :: documentItems rest

/-- The members of an object as documents. -/
def documentMembers : List (String × Json) → List (String × Document)
  | [] => []
  | (name, value) :: rest => (name, value.document) :: documentMembers rest

end

namespace Document

mutual

/-- The value of a document: members in ascending order of their names, the last one of a repeated
name.  A part without a value leaves the whole without one. -/
def value? : Document → Option Json
  | .unreadable => none
  | .null => some .null
  | .bool value => some (.bool value)
  | .integer value => some (.integer value)
  | .double value => some (.double value)
  | .string value => some (.string value)
  | .array items => (itemValues? items).map .array
  | .object members => (memberValues? members).map fun values =>
      .object (Fields.ofList values).entries

/-- The values of the items of an array. -/
def itemValues? : List Document → Option (List Json)
  | [] => some []
  | item :: rest => do
      let value ← item.value?
      let values ← itemValues? rest
      some (value :: values)

/-- The values of the members of an object, in the order written. -/
def memberValues? : List (String × Document) → Option (List (String × Json))
  | [] => some []
  | (name, member) :: rest => do
      let value ← member.value?
      let values ← memberValues? rest
      some ((name, value) :: values)

end

/-! ## The parser -/

/-- An array or object that is still open; its finished parts stand in reverse. -/
inductive Frame where
  | array (items : List Document)
  /-- An object, and the name of the member whose value comes next.  A name without a text leaves
  the object without a value. -/
  | object (members : List (String × Document)) (readable : Bool) (name : String)
  deriving Inhabited

/-- What the parser expects next. -/
inductive Expect where
  | value
  /-- The first item of an array, or its end. -/
  | firstItem
  /-- The first name of an object, or its end. -/
  | firstName
  | name
  | colon
  /-- The end of the text, or what may follow a value inside the innermost frame. -/
  | afterValue (value : Document)
  deriving Inhabited

/-- Hands a finished value to the innermost frame. -/
def Frame.push (frame : Frame) (value : Document) : Frame :=
  match frame with
  | .array items => .array (value :: items)
  | .object members readable name => .object ((name, value) :: members) readable name

/-- The document of a frame that is closed inside `depth` others. -/
def Frame.close (frame : Frame) (depth : Nat) : Document :=
  if nestingLimit ≤ depth then .unreadable
  else match frame with
    | .array items => .array items.reverse
    | .object members readable _ => if readable then .object members.reverse else .unreadable

/-- The document that one token is by itself. -/
def ofToken? : Token → Option Document
  | .null => some .null
  | .bool value => some (.bool value)
  | .number value => some ((value.map document).getD .unreadable)
  | .string text => some ((text.map .string).getD .unreadable)
  | _ => none

/-- The parser at the start of a value. -/
def beginValue (stack : List Frame) (token : Token) : Option (Expect × List Frame) :=
  match token with
  | .openBracket => some (.firstItem, .array [] :: stack)
  | .openBrace => some (.firstName, .object [] true "" :: stack)
  | token => (ofToken? token).map fun value => (.afterValue value, stack)

/-- The parser at the name of a member. -/
def beginMember (stack : List Frame) (token : Token) : Option (Expect × List Frame) :=
  match stack, token with
  | .object members readable _ :: outer, .string text =>
      some (.colon, .object members (readable && text.isSome) (text.getD "") :: outer)
  | _, _ => none

/-- The parser after one more token. -/
def advance (expect : Expect) (stack : List Frame) (token : Token) :
    Option (Expect × List Frame) :=
  match expect with
  | .value => beginValue stack token
  | .firstItem =>
      match stack, token with
      | frame :: outer, .closeBracket => some (.afterValue (frame.close outer.length), outer)
      | _, _ => beginValue stack token
  | .firstName =>
      match stack, token with
      | frame :: outer, .closeBrace => some (.afterValue (frame.close outer.length), outer)
      | _, _ => beginMember stack token
  | .name => beginMember stack token
  | .colon => if token = .colon then some (.value, stack) else none
  | .afterValue value =>
      match stack, token with
      | .array items :: outer, .comma => some (.value, .array (value :: items) :: outer)
      | .array items :: outer, .closeBracket =>
          some (.afterValue ((Frame.array (value :: items)).close outer.length), outer)
      | .object members readable name :: outer, .comma =>
          some (.name, .object ((name, value) :: members) readable name :: outer)
      | .object members readable name :: outer, .closeBrace =>
          some (.afterValue
            ((Frame.object ((name, value) :: members) readable name).close outer.length), outer)
      | _, _ => none

/-- The document that a sequence of tokens completes. -/
def parse (expect : Expect) (stack : List Frame) : List Token → Option Document
  | [] =>
      match expect, stack with
      | .afterValue value, [] => some value
      | _, _ => none
  | token :: rest => do
      let (expect', stack') ← advance expect stack token
      parse expect' stack' rest

/-- The document of a text; nothing when its form is wrong. -/
def read? (text : String) : Option Document := do
  let tokens ← tokens? text.toList
  parse .value [] tokens

end Document

/-- The value of a text. -/
def read? (text : String) : Option Json := do
  let document ← Document.read? text
  document.value?

end JobGraph.Json
