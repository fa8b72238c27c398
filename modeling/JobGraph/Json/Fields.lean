import JobGraph.Json.Basic

/-!
# Fields

The members of a JSON object as a finite map: names in ascending order of their characters, each
name once.  Setting a field replaces the value it had, so of a repeated name the last value stays.
-/

namespace JobGraph.Json

/-! ## Looking up members -/

section Lookup

variable {α : Type} {members other : List (String × α)} {name : String}

theorem lookup_cons_eq_ite (key name : String) (value : α) (rest : List (String × α)) :
    ((key, value) :: rest).lookup name = if name = key then some value else rest.lookup name := by
  rw [List.lookup_cons]
  by_cases h : name = key
  · rw [if_pos h, beq_iff_eq.2 h]
  · rw [if_neg h, beq_false_of_ne h]

theorem lookup_eq_none_of_not_mem (h : name ∉ members.map Prod.fst) : members.lookup name = none := by
  rw [List.lookup_eq_none_iff]
  intro member hmember
  rw [bne_iff_ne]
  rintro rfl
  exact h (List.mem_map_of_mem hmember)

/-- Members with distinct names are found by their names. -/
theorem lookup_eq_some_iff_mem (hnames : (members.map Prod.fst).Nodup) {value : α} :
    members.lookup name = some value ↔ (name, value) ∈ members := by
  induction members with
  | nil => exact iff_of_false nofun List.not_mem_nil
  | cons member rest ih =>
      obtain ⟨key, first⟩ := member
      rw [List.map_cons, List.nodup_cons] at hnames
      rw [lookup_cons_eq_ite, List.mem_cons, Prod.mk.injEq]
      by_cases hname : name = key
      · subst hname
        have hrest : (name, value) ∉ rest := fun hmem => hnames.1 (List.mem_map.2 ⟨_, hmem, rfl⟩)
        rw [if_pos rfl, Option.some.injEq, or_iff_left hrest, eq_comm]
        exact (and_iff_right rfl).symm
      · rw [if_neg hname, ih hnames.2, or_iff_right fun h => hname h.1]

/-- The order of members with distinct names does not matter. -/
theorem lookup_perm (hnames : (members.map Prod.fst).Nodup) (h : members.Perm other)
    (name : String) : members.lookup name = other.lookup name := by
  have hother : (other.map Prod.fst).Nodup := (h.map Prod.fst).nodup_iff.1 hnames
  refine Option.ext fun value => ?_
  rw [lookup_eq_some_iff_mem hnames, lookup_eq_some_iff_mem hother]
  exact h.mem_iff

end Lookup

/-! ## Ascending members -/

/-- Members in strictly ascending order of their names. -/
def Ascending (members : List (String × Json)) : Prop :=
  members.Pairwise fun first second => first.1 < second.1

theorem Ascending.nodup_names {members : List (String × Json)} (h : Ascending members) :
    (members.map Prod.fst).Nodup :=
  List.pairwise_map.2 (h.imp String.ne_of_lt)

/-- Puts a member at its place, in the stead of the one of that name. -/
def insertMember (name : String) (value : Json) : List (String × Json) → List (String × Json)
  | [] => [(name, value)]
  | (other, old) :: rest =>
      if name < other then (name, value) :: (other, old) :: rest
      else if name = other then (name, value) :: rest
      else (other, old) :: insertMember name value rest

/-- The names after an insertion. -/
theorem mem_insertMember {name : String} {value : Json} {members : List (String × Json)}
    {member : String × Json} (h : member ∈ insertMember name value members) :
    member = (name, value) ∨ member ∈ members := by
  induction members with
  | nil => simpa [insertMember] using h
  | cons head rest ih =>
      obtain ⟨other, old⟩ := head
      simp only [insertMember] at h
      split at h
      · simpa using h
      · split at h
        · rcases List.mem_cons.mp h with h | h
          · exact .inl h
          · exact .inr (List.mem_cons_of_mem _ h)
        · rcases List.mem_cons.mp h with h | h
          · exact .inr (h ▸ List.mem_cons_self)
          · exact (ih h).imp_right (List.mem_cons_of_mem _)

/-- Insertion keeps the order. -/
theorem ascending_insertMember {members : List (String × Json)} (name : String) (value : Json)
    (h : Ascending members) : Ascending (insertMember name value members) := by
  induction members with
  | nil => simp [insertMember, Ascending]
  | cons head rest ih =>
      obtain ⟨other, old⟩ := head
      obtain ⟨hhead, hrest⟩ := List.pairwise_cons.mp h
      simp only [insertMember]
      split
      · next hlt =>
          refine List.pairwise_cons.mpr ⟨fun member hmember => ?_, h⟩
          rcases List.mem_cons.mp hmember with rfl | hmember
          · exact hlt
          · exact String.lt_trans hlt (hhead member hmember)
      · next hlt =>
          split
          · next heq =>
              subst heq
              exact List.pairwise_cons.mpr ⟨hhead, hrest⟩
          · next hne =>
              have hother : other < name := by
                rcases Std.lt_trichotomy other name with hlt' | heq | hgt
                · exact hlt'
                · exact absurd heq.symm hne
                · exact absurd hgt hlt
              refine List.pairwise_cons.mpr ⟨fun member hmember => ?_, ih hrest⟩
              rcases mem_insertMember hmember with rfl | hmember
              · exact hother
              · exact hhead member hmember

theorem lookup_insertMember (name other : String) (value : Json) (members : List (String × Json)) :
    (insertMember name value members).lookup other =
      if other = name then some value else members.lookup other := by
  induction members with
  | nil => rw [insertMember, lookup_cons_eq_ite]
  | cons head rest ih =>
      obtain ⟨key, old⟩ := head
      rw [insertMember]
      split
      · rw [lookup_cons_eq_ite]
      · split
        · next heq =>
            subst heq
            rw [lookup_cons_eq_ite, lookup_cons_eq_ite]
            split
            · rfl
            · rfl
        · next hne =>
            rw [lookup_cons_eq_ite, lookup_cons_eq_ite, ih]
            by_cases hkey : other = key
            · rw [if_pos hkey, if_pos hkey, if_neg]
              rintro rfl
              exact hne hkey
            · rw [if_neg hkey, if_neg hkey]

/-! ## Fields -/

/-- The members of an object whose order means nothing. -/
structure Fields where
  entries : List (String × Json)
  ascending : Ascending entries
  deriving DecidableEq

namespace Fields

/-- No fields. -/
def empty : Fields :=
  ⟨[], .nil⟩

instance : Inhabited Fields := ⟨empty⟩

/-- The value of a field. -/
def get? (fields : Fields) (name : String) : Option Json :=
  fields.entries.lookup name

/-- Sets a field. -/
def insert (fields : Fields) (name : String) (value : Json) : Fields :=
  ⟨insertMember name value fields.entries, ascending_insertMember name value fields.ascending⟩

/-- Removes a field. -/
def erase (fields : Fields) (name : String) : Fields :=
  ⟨fields.entries.filter fun member => member.1 ≠ name, fields.ascending.filter _⟩

/-- Sets all members of a list, from left to right. -/
def insertAll (fields : Fields) (members : List (String × Json)) : Fields :=
  members.foldl (fun fields member => fields.insert member.1 member.2) fields

/-- The fields of a list of members; of a repeated name the last value stays. -/
def ofList (members : List (String × Json)) : Fields :=
  empty.insertAll members

/-- Overwrites fields with those of another object. -/
def overwrite (fields update : Fields) : Fields :=
  fields.insertAll update.entries

/-- The names in ascending order. -/
def names (fields : Fields) : List String :=
  fields.entries.map Prod.fst

@[ext]
theorem ext_entries {first second : Fields} (h : first.entries = second.entries) :
    first = second := by
  cases first
  cases second
  simpa using h

theorem get?_insert (fields : Fields) (name other : String) (value : Json) :
    (fields.insert name value).get? other = if other = name then some value else fields.get? other :=
  lookup_insertMember name other value fields.entries

/-- Of a repeated name the last value stays. -/
theorem get?_insertAll (fields : Fields) (members : List (String × Json)) (name : String) :
    (fields.insertAll members).get? name = (members.reverse.lookup name).or (fields.get? name) := by
  induction members generalizing fields with
  | nil => rfl
  | cons member rest ih =>
      obtain ⟨key, value⟩ := member
      have hlast : ((fields.insert key value).get? name) =
          ([(key, value)].lookup name).or (fields.get? name) := by
        rw [get?_insert, lookup_cons_eq_ite]
        split <;> rfl
      rw [insertAll, List.foldl_cons, List.reverse_cons, List.lookup_append, Option.or_assoc, ← hlast]
      exact ih (fields.insert key value)

/-- A field that the update has is overwritten, any other is left. -/
theorem get?_overwrite (fields update : Fields) (name : String) :
    (fields.overwrite update).get? name = (update.get? name).or (fields.get? name) := by
  have horder := lookup_perm update.ascending.nodup_names (List.reverse_perm _).symm name
  rw [overwrite, get?_insertAll, ← horder]
  rfl

end Fields

end JobGraph.Json
