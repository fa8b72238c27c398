/-!
# Indices of ids

A finite map from ids to nodes.  The entry set last stands first and hides earlier ones of its id.
-/

namespace JobGraph

/-- A node, by its place in the order in which the nodes of its graph were created. -/
abbrev NodeKey := Nat

/-- A finite map from ids to nodes. -/
structure IdIndex where
  entries : List (String × NodeKey)
  deriving DecidableEq, Repr, Inhabited

namespace IdIndex

/-- No ids. -/
def empty : IdIndex :=
  ⟨[]⟩

/-- The node of an id. -/
def get? (index : IdIndex) (id : String) : Option NodeKey :=
  index.entries.lookup id

/-- Whether an id has a node. -/
def contains (index : IdIndex) (id : String) : Bool :=
  (index.get? id).isSome

/-- Sets the node of an id. -/
def insert (index : IdIndex) (id : String) (key : NodeKey) : IdIndex :=
  ⟨(id, key) :: index.entries⟩

/-- Sets the node of an id that has none yet. -/
def insertNew (index : IdIndex) (id : String) (key : NodeKey) : IdIndex :=
  if index.contains id then index else index.insert id key

/-- Leaves an id without a node. -/
def erase (index : IdIndex) (id : String) : IdIndex :=
  ⟨index.entries.filter fun entry => entry.1 != id⟩

@[simp]
theorem get?_empty (id : String) : empty.get? id = none := rfl

private theorem lookup_cons_eq_ite (id other : String) (key : NodeKey)
    (entries : List (String × NodeKey)) :
    ((id, key) :: entries).lookup other = if other = id then some key else entries.lookup other := by
  rw [List.lookup_cons]
  by_cases h : other = id
  · simp [h]
  · simp [h, beq_false_of_ne h]

theorem get?_insert (index : IdIndex) (id other : String) (key : NodeKey) :
    (index.insert id key).get? other = if other = id then some key else index.get? other := by
  simp only [get?, insert, lookup_cons_eq_ite]

theorem get?_insertNew (index : IdIndex) (id other : String) (key : NodeKey) :
    (index.insertNew id key).get? other =
      if other = id then some ((index.get? id).getD key) else index.get? other := by
  unfold insertNew contains
  cases h : index.get? id with
  | none => simp [get?_insert]
  | some old =>
      by_cases hother : other = id
      · simp [hother, h]
      · simp [hother]

theorem get?_erase (index : IdIndex) (id other : String) :
    (index.erase id).get? other = if other = id then none else index.get? other := by
  unfold get? erase
  induction index.entries with
  | nil => simp
  | cons entry rest ih =>
      obtain ⟨entryId, entryKey⟩ := entry
      rw [lookup_cons_eq_ite]
      by_cases hentry : entryId = id
      · subst hentry
        by_cases hother : other = entryId
        · simpa [hother] using ih
        · simpa [hother] using ih
      · have hkept : ((entryId, entryKey) :: rest).filter (fun entry => entry.1 != id) =
            (entryId, entryKey) :: rest.filter fun entry => entry.1 != id := by
          simp [hentry]
        rw [hkept, lookup_cons_eq_ite]
        by_cases hother : other = entryId
        · subst hother
          simp [hentry]
        · simpa [hother] using ih

end IdIndex

end JobGraph
