/-!
# TOML tables

The values of a TOML document and the rules by which its lines fill tables.  A table remembers how
it came about, since that decides what may be added to it: a table named by a header is closed to
dotted keys, a table made by dotted keys is closed to headers, and an inline table is closed to
everything.
-/

namespace JobGraph.Toml

/-- How a table came about. -/
inductive Origin where
  /-- The whole document, or a header of its own. -/
  | header
  /-- The header of a table inside it. -/
  | implied
  | dotted
  | inlined
  deriving DecidableEq, Repr

/-- A value. -/
inductive Item where
  | string (value : String)
  | integer (value : Int)
  | float (value : Float)
  | boolean (value : Bool)
  | dateTime
  | array (items : List Item)
  /-- The tables that headers in double brackets add one by one, the last one first. -/
  | tables (reversed : List (List (String × Item)))
  | table (origin : Origin) (members : List (String × Item))
  deriving Inhabited

/-- The members of a table, in the order in which they came. -/
abbrev Members := List (String × Item)

/-- The item of a key. -/
def Members.find? (members : Members) (key : String) : Option Item :=
  members.lookup key

/-- Replaces the item of a key that is there, or adds the key at the end. -/
def Members.put : Members → String → Item → Members
  | [], key, item => [(key, item)]
  | (other, old) :: rest, key, item =>
      if other = key then (key, item) :: rest else (other, old) :: Members.put rest key item

/-- The members without a key. -/
def Members.remove (members : Members) (key : String) : Members :=
  members.filter fun member => member.1 ≠ key

/-- Changes the table at the end of a path.  Tables on the way that are missing are made; an array
of tables stands for its last one. -/
def changeAt (dotted : Bool) (change : Origin → Members → Option Members) :
    List String → Origin → Members → Option Members
  | [], origin, members => change origin members
  | key :: rest, _, members =>
      match Members.find? members key with
      | none => do
          let origin := if dotted then Origin.dotted else .implied
          let inner ← changeAt dotted change rest origin []
          some (Members.put members key (.table origin inner))
      | some (.tables (last :: others)) => do
          let inner ← changeAt dotted change rest .header last
          some (Members.put members key (.tables (inner :: others)))
      | some (.table origin inner) =>
          if origin = .inlined ∨ (dotted ∧ origin = .header) then none
          else do
            let inner ← changeAt dotted change rest origin inner
            some (Members.put members key (.table origin inner))
      | some _ => none

/-- Adds a key that must be new. -/
def addNew (key : String) (item : Item) (members : Members) : Option Members :=
  if (Members.find? members key).isSome then none else some (Members.put members key item)

/-- Adds an item under a dotted key.  A key with dots adds only to tables that such keys made. -/
def addDotted (path : List String) (key : String) (item : Item) (members : Members) :
    Option Members :=
  changeAt true (fun origin inner =>
    if !path.isEmpty && origin != .dotted then none else addNew key item inner)
    path .header members

/-- Splits the last key off a path. -/
def splitLast : List String → Option (List String × String)
  | [] => none
  | [key] => some ([], key)
  | key :: rest => (splitLast rest).map fun split => (key :: split.1, split.2)

/-! ## Documents under way -/

/-- The header whose table is being filled. -/
inductive Header where
  | root
  | table (path : List String) (key : String)
  | arrayItem (path : List String) (key : String)
  deriving DecidableEq, Repr

/-- A document under way: the tables that are finished, and the one being filled. -/
structure Draft where
  root : Members
  header : Header
  current : Members

/-- The document before its first line. -/
def Draft.start : Draft :=
  ⟨[], .root, []⟩

/-- Puts the table being filled to its place. -/
def Draft.settle (draft : Draft) : Option Members :=
  match draft.header with
  | .root => some draft.current
  | .table path key =>
      changeAt false (fun _ members => addNew key (.table .header draft.current) members)
        path .header draft.root
  | .arrayItem path key =>
      changeAt false (fun _ members =>
        match Members.find? members key with
        | some (.tables items) => some (Members.put members key (.tables (draft.current :: items)))
        | _ => none) path .header draft.root

/-- Adds the item of a line to the table being filled. -/
def Draft.addLine (draft : Draft) (keys : List String) (item : Item) : Option Draft := do
  let (path, key) ← splitLast keys
  let current ← addDotted path key item draft.current
  some { draft with current }

/-- What a table may hold already when its header comes. -/
def reopened? : Option Item → Option Members
  | none => some []
  | some (.table .implied members) => some members
  | some _ => none

/-- The item that the path of a header leads to, if there is one. -/
def itemAt? : List String → String → Members → Option Item
  | [], key, members => Members.find? members key
  | step :: rest, key, members =>
      match Members.find? members step with
      | some (.table _ inner) => itemAt? rest key inner
      | some (.tables (last :: _)) => itemAt? rest key last
      | _ => none

/-- Begins the table of a header. -/
def Draft.openTable (draft : Draft) (keys : List String) : Option Draft := do
  let (path, key) ← splitLast keys
  let settled ← draft.settle
  let current ← reopened? (itemAt? path key settled)
  let root ← changeAt false (fun _ members => some (Members.remove members key)) path .header
    settled
  some ⟨root, .table path key, current⟩

/-- Begins the next table of an array of tables. -/
def Draft.openArrayItem (draft : Draft) (keys : List String) : Option Draft := do
  let (path, key) ← splitLast keys
  let settled ← draft.settle
  let root ← changeAt false (fun _ members =>
    match Members.find? members key with
    | none => some (Members.put members key (.tables []))
    | some (.tables _) => some members
    | some _ => none) path .header settled
  some ⟨root, .arrayItem path key, []⟩

end JobGraph.Toml
