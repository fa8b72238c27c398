/-!
# JSON values

Values of JSON and the members of an object.  An object holds its members in the order in which
they are written.  `Fields` are the members of an object whose order means nothing: they stand in
ascending order of their names, each name once.
-/

namespace JobGraph

/-- A JSON value.  A number is an integer or a double, and the two are never equal. -/
inductive Json where
  | null
  | bool (value : Bool)
  | integer (value : Int)
  | double (value : Float)
  | string (value : String)
  | array (items : List Json)
  | object (members : List (String × Json))
  deriving Inhabited

namespace Json

/-! ## Equality is decidable -/

mutual

/-- Decides whether two values are equal. -/
def decEq : (v w : Json) → Decidable (v = w)
  | .null, w => match w with
    | .null => isTrue rfl
    | .bool _ | .integer _ | .double _ | .string _ | .array _ | .object _ =>
        isFalse (by intro h; cases h)
  | .bool a, w => match w with
    | .bool b => decidable_of_iff (a = b) (by simp)
    | .null | .integer _ | .double _ | .string _ | .array _ | .object _ =>
        isFalse (by intro h; cases h)
  | .integer a, w => match w with
    | .integer b => decidable_of_iff (a = b) (by simp)
    | .null | .bool _ | .double _ | .string _ | .array _ | .object _ =>
        isFalse (by intro h; cases h)
  | .double a, w => match w with
    | .double b => decidable_of_iff (a = b) (by simp)
    | .null | .bool _ | .integer _ | .string _ | .array _ | .object _ =>
        isFalse (by intro h; cases h)
  | .string a, w => match w with
    | .string b => decidable_of_iff (a = b) (by simp)
    | .null | .bool _ | .integer _ | .double _ | .array _ | .object _ =>
        isFalse (by intro h; cases h)
  | .array a, w => match w with
    | .array b => @decidable_of_iff _ (a = b) (by simp) (decEqItems a b)
    | .null | .bool _ | .integer _ | .double _ | .string _ | .object _ =>
        isFalse (by intro h; cases h)
  | .object a, w => match w with
    | .object b => @decidable_of_iff _ (a = b) (by simp) (decEqMembers a b)
    | .null | .bool _ | .integer _ | .double _ | .string _ | .array _ =>
        isFalse (by intro h; cases h)

/-- Decides whether two lists of values are equal. -/
def decEqItems : (v w : List Json) → Decidable (v = w)
  | [], w => match w with
    | [] => isTrue rfl
    | _ :: _ => isFalse (by intro h; cases h)
  | v :: vs, w => match w with
    | [] => isFalse (by intro h; cases h)
    | w :: ws =>
        @decidable_of_iff _ (v = w ∧ vs = ws) (by simp)
          (@instDecidableAnd _ _ (decEq v w) (decEqItems vs ws))

/-- Decides whether two lists of members are equal. -/
def decEqMembers : (v w : List (String × Json)) → Decidable (v = w)
  | [], w => match w with
    | [] => isTrue rfl
    | _ :: _ => isFalse (by intro h; cases h)
  | (k, v) :: vs, w => match w with
    | [] => isFalse (by intro h; cases h)
    | (l, w) :: ws =>
        @decidable_of_iff _ (k = l ∧ v = w ∧ vs = ws) (by simp [and_assoc])
          (@instDecidableAnd _ _ inferInstance
            (@instDecidableAnd _ _ (decEq v w) (decEqMembers vs ws)))

end

instance : DecidableEq Json := decEq

/-! ## Reading parts of a value -/

/-- Whether a value is `null`. -/
def isNull : Json → Bool
  | .null => true
  | _ => false

/-- The text of a string. -/
def text? : Json → Option String
  | .string s => some s
  | _ => none

/-- The member of that name, of an object. -/
def get? (value : Json) (name : String) : Option Json :=
  match value with
  | .object members => members.lookup name
  | _ => none

/-- An array of strings. -/
def ofTexts (texts : List String) : Json :=
  .array (texts.map .string)

/-- A natural number. -/
def ofNat (n : Nat) : Json :=
  .integer n

/-- A value, or `null` for none. -/
def orNull {α : Type} (encode : α → Json) : Option α → Json
  | none => .null
  | some a => encode a

/-- A member that is left out when its value is absent. -/
def optional {α : Type} (name : String) (encode : α → Json) : Option α → List (String × Json)
  | none => []
  | some a => [(name, encode a)]

end Json

end JobGraph
