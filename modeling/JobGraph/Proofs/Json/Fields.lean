import JobGraph.Json.Fields
import Mathlib.Data.List.Nodup
import Mathlib.Data.List.Perm.Basic

/-!
# Fields as maps

Fields are asked for names, and the answers are all there is to them:

* **Extensionality.**  Fields that give the same answers are the same: `Fields.ext_get?`.
* **Overwriting.**  What was said last is found.  So overwriting is associative and idempotent, and no fields
  at all are its unit.
-/

namespace JobGraph.Json

theorem lookup_filter {α : Type} (keep : String → Bool) (members : List (String × α)) (name : String) :
    (members.filter fun member => keep member.1).lookup name =
      if keep name then members.lookup name else none := by
  induction members with
  | nil => exact (ite_self none).symm
  | cons member rest ih =>
      obtain ⟨key, value⟩ := member
      rw [List.filter_cons]
      by_cases hname : name = key
      · subst hname
        cases hkeep : keep name with
        | true =>
            rw [if_pos rfl, if_pos rfl, lookup_cons_eq_ite, lookup_cons_eq_ite, if_pos rfl, if_pos rfl]
        | false => rw [if_neg Bool.false_ne_true, if_neg Bool.false_ne_true, ih, hkeep,
            if_neg Bool.false_ne_true]
      · rw [lookup_cons_eq_ite, if_neg hname, ← ih]
        split
        · rw [lookup_cons_eq_ite, if_neg hname]
        · rfl

namespace Fields

variable {fields update : Fields} {name : String}

theorem mem_entries_iff {value : Json} :
    (name, value) ∈ fields.entries ↔ fields.get? name = some value :=
  (lookup_eq_some_iff_mem fields.ascending.nodup_names).symm

/-- Fields are what is found under the names. -/
theorem ext_get? (h : ∀ name, fields.get? name = update.get? name) : fields = update := by
  have hnodup : ∀ fields : Fields, fields.entries.Nodup :=
    fun fields => fields.ascending.nodup_names.of_map _
  have hperm : fields.entries.Perm update.entries := by
    rw [List.perm_ext_iff_of_nodup (hnodup fields) (hnodup update)]
    rintro ⟨name, value⟩
    rw [mem_entries_iff, mem_entries_iff, h]
  refine ext_entries (hperm.eq_of_pairwise ?_ fields.ascending update.ascending)
  exact fun _ _ _ _ hlt hgt => absurd hgt (String.lt_asymm hlt)

theorem get?_empty (name : String) : empty.get? name = none :=
  rfl

theorem get?_erase (fields : Fields) (erased name : String) :
    (fields.erase erased).get? name = if name = erased then none else fields.get? name := by
  have hfilter := lookup_filter (fun key => decide (key ≠ erased)) fields.entries name
  rw [get?, erase, hfilter]
  by_cases hname : name = erased
  · rw [if_pos hname, if_neg (by simp [hname])]
  · rw [if_neg hname, if_pos (by simp [hname])]
    rfl

theorem get?_foldl_erase (names : List String) (fields : Fields) (name : String) :
    (names.foldl erase fields).get? name = if name ∈ names then none else fields.get? name := by
  induction names generalizing fields with
  | nil => exact (if_neg List.not_mem_nil).symm
  | cons first rest ih =>
      rw [List.foldl_cons, ih, get?_erase]
      by_cases hname : name = first
      · rw [if_pos hname, ite_self, if_pos (List.mem_cons.2 (.inl hname))]
      · simp only [List.mem_cons, hname, false_or, if_false]

/-! ## Overwriting -/

theorem get?_ofList (members : List (String × Json)) (name : String) :
    (ofList members).get? name = members.reverse.lookup name := by
  rw [ofList, get?_insertAll, get?_empty, Option.or_none]

theorem overwrite_assoc (fields update further : Fields) :
    (fields.overwrite update).overwrite further = fields.overwrite (update.overwrite further) := by
  refine ext_get? fun name => ?_
  rw [get?_overwrite, get?_overwrite, get?_overwrite, get?_overwrite, Option.or_assoc]

theorem overwrite_self (fields : Fields) : fields.overwrite fields = fields := by
  refine ext_get? fun name => ?_
  rw [get?_overwrite, Option.or_self]

theorem empty_overwrite (update : Fields) : empty.overwrite update = update := by
  refine ext_get? fun name => ?_
  rw [get?_overwrite, get?_empty, Option.or_none]

end Fields

end JobGraph.Json
