import JobGraph.Json.Document
import JobGraph.Proofs.Json.Numbers

/-!
# Values that can be written and read again

Two things are asked of a value so that its text stands for it.

* **Legible.**  Integers fit into 64 bits, doubles are such that what is written for them is read as
  the same double, and arrays and objects are nested no deeper than allowed: `Legible`.
* **Canonical.**  The members of each object stand in ascending order, since an object that is read
  without a record in mind is sorted: `Canonical`.

Whatever is read has both, doubles apart.
-/

namespace JobGraph.Json

/-! ## Legible values -/

/-- A value with integers of 64 bits and allowed doubles that is nested no deeper than this. -/
inductive Legible (allowed : Float → Prop) : Nat → Json → Prop where
  | null (depth : Nat) : Legible allowed depth .null
  | bool (depth : Nat) (value : Bool) : Legible allowed depth (.bool value)
  | integer (depth : Nat) {value : Int} (hword : IsWord value) :
      Legible allowed depth (.integer value)
  | double (depth : Nat) {value : Float} (hallowed : allowed value) :
      Legible allowed depth (.double value)
  | string (depth : Nat) (value : String) : Legible allowed depth (.string value)
  | array {depth : Nat} {items : List Json}
      (hitems : ∀ item ∈ items, Legible allowed depth item) :
      Legible allowed (depth + 1) (.array items)
  | object {depth : Nat} {members : List (String × Json)}
      (hmembers : ∀ member ∈ members, Legible allowed depth member.2) :
      Legible allowed (depth + 1) (.object members)

namespace Legible

variable {allowed : Float → Prop} {depth depth' : Nat} {value : Json}

theorem mono (h : Legible allowed depth value) (hle : depth ≤ depth') :
    Legible allowed depth' value := by
  induction h generalizing depth' with
  | null => exact .null _
  | bool => exact .bool _ _
  | integer _ hword => exact .integer _ hword
  | double _ hallowed => exact .double _ hallowed
  | string => exact .string _ _
  | array _ ih =>
      obtain ⟨deeper, rfl⟩ : ∃ deeper, depth' = deeper + 1 := ⟨depth' - 1, by omega⟩
      exact .array fun item hitem => ih item hitem (Nat.le_of_succ_le_succ hle)
  | object _ ih =>
      obtain ⟨deeper, rfl⟩ : ∃ deeper, depth' = deeper + 1 := ⟨depth' - 1, by omega⟩
      exact .object fun member hmember => ih member hmember (Nat.le_of_succ_le_succ hle)

end Legible

/-! ## Doubles -/

mutual

/-- The doubles that occur in a value. -/
def doubles : Json → List Float
  | .double value => [value]
  | .array items => itemDoubles items
  | .object members => memberDoubles members
  | .null | .bool _ | .integer _ | .string _ => []

/-- The doubles that occur in the items of an array. -/
def itemDoubles : List Json → List Float
  | [] => []
  | item :: rest => item.doubles ++ itemDoubles rest

/-- The doubles that occur in the members of an object. -/
def memberDoubles : List (String × Json) → List Float
  | [] => []
  | (_, value) :: rest => value.doubles ++ memberDoubles rest

end

theorem itemDoubles_eq (items : List Json) : itemDoubles items = items.flatMap doubles := by
  induction items with
  | nil => rfl
  | cons item rest ih => rw [itemDoubles, ih, List.flatMap_cons]

theorem memberDoubles_eq (members : List (String × Json)) :
    memberDoubles members = members.flatMap fun member => member.2.doubles := by
  induction members with
  | nil => rfl
  | cons member rest ih => rw [memberDoubles, ih, List.flatMap_cons]

theorem mem_doubles_array {items : List Json} {x : Float} :
    x ∈ (array items).doubles ↔ ∃ item ∈ items, x ∈ item.doubles := by
  rw [doubles, itemDoubles_eq, List.mem_flatMap]

theorem mem_doubles_object {members : List (String × Json)} {x : Float} :
    x ∈ (object members).doubles ↔ ∃ member ∈ members, x ∈ member.2.doubles := by
  rw [doubles, memberDoubles_eq, List.mem_flatMap]

/-- Only the doubles that occur have to be allowed. -/
theorem Legible.of_doubles {allowed allowed' : Float → Prop} {depth : Nat} {value : Json}
    (h : Legible allowed depth value) (hdoubles : ∀ x ∈ value.doubles, allowed' x) :
    Legible allowed' depth value := by
  induction h with
  | null => exact .null _
  | bool => exact .bool _ _
  | integer _ hword => exact .integer _ hword
  | double => exact .double _ (hdoubles _ (by rw [doubles]; exact List.mem_singleton_self _))
  | string => exact .string _ _
  | array _ ih =>
      exact .array fun item hitem => ih item hitem fun x hx =>
        hdoubles x (mem_doubles_array.2 ⟨item, hitem, hx⟩)
  | object _ ih =>
      exact .object fun member hmember => ih member hmember fun x hx =>
        hdoubles x (mem_doubles_object.2 ⟨member, hmember, hx⟩)

/-! ## Canonical values -/

/-- A value whose objects hold their members in ascending order. -/
inductive Canonical : Json → Prop where
  | null : Canonical .null
  | bool (value : Bool) : Canonical (.bool value)
  | integer (value : Int) : Canonical (.integer value)
  | double (value : Float) : Canonical (.double value)
  | string (value : String) : Canonical (.string value)
  | array {items : List Json} (hitems : ∀ item ∈ items, Canonical item) : Canonical (.array items)
  | object {members : List (String × Json)} (hascending : Ascending members)
      (hmembers : ∀ member ∈ members, Canonical member.2) : Canonical (.object members)

theorem insertMember_of_forall_lt {members : List (String × Json)} {name : String} (value : Json)
    (h : ∀ member ∈ members, member.1 < name) :
    insertMember name value members = members ++ [(name, value)] := by
  induction members with
  | nil => rfl
  | cons member rest ih =>
      have hlt := h member List.mem_cons_self
      rw [insertMember, if_neg (String.lt_asymm hlt), if_neg (String.ne_of_lt hlt).symm,
        ih fun other hother => h other (List.mem_cons_of_mem member hother), List.cons_append]

namespace Fields

theorem entries_insertAll (fields : Fields) {members : List (String × Json)}
    (h : Ascending (fields.entries ++ members)) :
    (fields.insertAll members).entries = fields.entries ++ members := by
  induction members generalizing fields with
  | nil => exact (List.append_nil _).symm
  | cons member rest ih =>
      have hlast : (fields.insert member.1 member.2).entries = fields.entries ++ [member] :=
        insertMember_of_forall_lt member.2 fun other hother =>
          (List.pairwise_append.1 h).2.2 other hother member List.mem_cons_self
      rw [insertAll, List.foldl_cons]
      refine (ih _ ?_).trans ?_
      · rwa [hlast, List.append_assoc]
      · rw [hlast, List.append_assoc]
        rfl

/-- Members that are in order stay as they are. -/
theorem entries_ofList {members : List (String × Json)} (h : Ascending members) :
    (ofList members).entries = members :=
  entries_insertAll empty h

theorem mem_entries_insertAll {fields : Fields} {members : List (String × Json)}
    {member : String × Json} (h : member ∈ (fields.insertAll members).entries) :
    member ∈ fields.entries ∨ member ∈ members := by
  induction members generalizing fields with
  | nil => exact .inl h
  | cons first rest ih =>
      rw [insertAll, List.foldl_cons] at h
      rcases ih h with hinserted | hrest
      · rcases mem_insertMember hinserted with rfl | hold
        · exact .inr List.mem_cons_self
        · exact .inl hold
      · exact .inr (List.mem_cons_of_mem first hrest)

/-- Fields are made of the members that they were given. -/
theorem mem_of_mem_entries_ofList {members : List (String × Json)} {member : String × Json}
    (h : member ∈ (ofList members).entries) : member ∈ members :=
  (mem_entries_insertAll h).resolve_left List.not_mem_nil

end Fields

/-! ## Values of documents -/

theorem documentItems_eq (items : List Json) : documentItems items = items.map document := by
  induction items with
  | nil => rfl
  | cons item rest ih => rw [documentItems, ih, List.map_cons]

theorem documentMembers_eq (members : List (String × Json)) :
    documentMembers members = members.map fun member => (member.1, member.2.document) := by
  induction members with
  | nil => rfl
  | cons member rest ih => rw [documentMembers, ih, List.map_cons]

namespace Document

theorem itemValues?_map_document {items : List Json}
    (h : ∀ item ∈ items, item.document.value? = some item) :
    itemValues? (items.map document) = some items := by
  induction items with
  | nil => rfl
  | cons item rest ih =>
      rw [List.map_cons, itemValues?, h item List.mem_cons_self,
        ih fun other hother => h other (List.mem_cons_of_mem item hother)]
      rfl

theorem memberValues?_map_document {members : List (String × Json)}
    (h : ∀ member ∈ members, member.2.document.value? = some member.2) :
    memberValues? (members.map fun member => (member.1, member.2.document)) = some members := by
  induction members with
  | nil => rfl
  | cons member rest ih =>
      rw [List.map_cons, memberValues?, h member List.mem_cons_self,
        ih fun other hother => h other (List.mem_cons_of_mem member hother)]
      rfl

/-- A canonical value is the value of its document. -/
theorem value?_document {value : Json} (h : Canonical value) : value.document.value? = some value := by
  induction h with
  | null => rfl
  | bool => rfl
  | integer => rfl
  | double => rfl
  | string => rfl
  | array _ ih =>
      rw [document, value?, documentItems_eq, itemValues?_map_document ih]
      rfl
  | object hascending _ ih =>
      rw [document, value?, documentMembers_eq, memberValues?_map_document ih, Option.map_some,
        Fields.entries_ofList hascending]

/-- Only the word for it has the value `null`. -/
theorem eq_null_of_value? {document : Document} (h : document.value? = some .null) :
    document = .null := by
  cases document with
  | null => rfl
  | array items => simp [value?] at h
  | object members => simp [value?] at h
  | _ => simp [value?] at h

mutual

/-- Whatever value a document has, it is canonical. -/
theorem canonical_of_value? : ∀ {document : Document} {value : Json},
    document.value? = some value → Canonical value
  | .null, _, h => Option.some.inj h ▸ .null
  | .bool value, _, h => Option.some.inj h ▸ .bool value
  | .integer value, _, h => Option.some.inj h ▸ .integer value
  | .double value, _, h => Option.some.inj h ▸ .double value
  | .string value, _, h => Option.some.inj h ▸ .string value
  | .array _, _, h => by
      obtain ⟨values, hvalues, rfl⟩ := Option.map_eq_some_iff.1 h
      exact .array (canonical_of_itemValues? hvalues)
  | .object _, _, h => by
      obtain ⟨values, hvalues, rfl⟩ := Option.map_eq_some_iff.1 h
      exact .object (Fields.ofList values).ascending fun member hmember =>
        canonical_of_memberValues? hvalues member (Fields.mem_of_mem_entries_ofList hmember)

theorem canonical_of_itemValues? : ∀ {items : List Document} {values : List Json},
    itemValues? items = some values → ∀ value ∈ values, Canonical value
  | [], _, h => by
      rw [← Option.some.inj h]
      exact fun _ hvalue => absurd hvalue List.not_mem_nil
  | _ :: _, _, h => by
      obtain ⟨first, hfirst, h⟩ := Option.bind_eq_some_iff.1 h
      obtain ⟨others, hothers, h⟩ := Option.bind_eq_some_iff.1 h
      rw [← Option.some.inj h]
      exact List.forall_mem_cons.2 ⟨canonical_of_value? hfirst, canonical_of_itemValues? hothers⟩

theorem canonical_of_memberValues? : ∀ {members : List (String × Document)}
    {values : List (String × Json)}, memberValues? members = some values →
      ∀ value ∈ values, Canonical value.2
  | [], _, h => by
      rw [← Option.some.inj h]
      exact fun _ hvalue => absurd hvalue List.not_mem_nil
  | (_, _) :: _, _, h => by
      obtain ⟨first, hfirst, h⟩ := Option.bind_eq_some_iff.1 h
      obtain ⟨others, hothers, h⟩ := Option.bind_eq_some_iff.1 h
      rw [← Option.some.inj h]
      exact List.forall_mem_cons.2 ⟨canonical_of_value? hfirst, canonical_of_memberValues? hothers⟩

end

/-! ## Sound documents -/

/-- A document with integers of 64 bits that is nested no deeper than this.  What is nested deeper was
marked, so nobody can read it. -/
inductive Sound : Nat → Document → Prop where
  | unreadable (depth : Nat) : Sound depth .unreadable
  | null (depth : Nat) : Sound depth .null
  | bool (depth : Nat) (value : Bool) : Sound depth (.bool value)
  | integer (depth : Nat) {value : Int} (hword : IsWord value) : Sound depth (.integer value)
  | double (depth : Nat) (value : Float) : Sound depth (.double value)
  | string (depth : Nat) (value : String) : Sound depth (.string value)
  | array {depth : Nat} {items : List Document} (hitems : ∀ item ∈ items, Sound depth item) :
      Sound (depth + 1) (.array items)
  | object {depth : Nat} {members : List (String × Document)}
      (hmembers : ∀ member ∈ members, Sound depth member.2) : Sound (depth + 1) (.object members)

theorem Sound.mono {depth depth' : Nat} {document : Document} (h : Sound depth document)
    (hle : depth ≤ depth') : Sound depth' document := by
  induction h generalizing depth' with
  | unreadable => exact .unreadable _
  | null => exact .null _
  | bool => exact .bool _ _
  | integer _ hword => exact .integer _ hword
  | double => exact .double _ _
  | string => exact .string _ _
  | array _ ih =>
      obtain ⟨deeper, rfl⟩ : ∃ deeper, depth' = deeper + 1 := ⟨depth' - 1, by omega⟩
      exact .array fun item hitem => ih item hitem (Nat.le_of_succ_le_succ hle)
  | object _ ih =>
      obtain ⟨deeper, rfl⟩ : ∃ deeper, depth' = deeper + 1 := ⟨depth' - 1, by omega⟩
      exact .object fun member hmember => ih member hmember (Nat.le_of_succ_le_succ hle)

theorem mem_itemValues? {items : List Document} {values : List Json} {value : Json}
    (h : itemValues? items = some values) (hvalue : value ∈ values) :
    ∃ item ∈ items, item.value? = some value := by
  induction items generalizing values with
  | nil =>
      rw [itemValues?, Option.some.injEq] at h
      rw [← h] at hvalue
      exact absurd hvalue List.not_mem_nil
  | cons item rest ih =>
      simp only [itemValues?, Option.bind_eq_bind, Option.bind_eq_some_iff, Option.some.injEq] at h
      obtain ⟨first, hfirst, others, hothers, rfl⟩ := h
      rcases List.mem_cons.1 hvalue with rfl | hvalue
      · exact ⟨item, List.mem_cons_self, hfirst⟩
      · obtain ⟨other, hother, hread⟩ := ih hothers hvalue
        exact ⟨other, List.mem_cons_of_mem item hother, hread⟩

theorem mem_memberValues? {members : List (String × Document)} {values : List (String × Json)}
    {value : String × Json} (h : memberValues? members = some values) (hvalue : value ∈ values) :
    ∃ member ∈ members, member.2.value? = some value.2 := by
  induction members generalizing values with
  | nil =>
      rw [memberValues?, Option.some.injEq] at h
      rw [← h] at hvalue
      exact absurd hvalue List.not_mem_nil
  | cons member rest ih =>
      simp only [memberValues?, Option.bind_eq_bind, Option.bind_eq_some_iff,
        Option.some.injEq] at h
      obtain ⟨first, hfirst, others, hothers, rfl⟩ := h
      rcases List.mem_cons.1 hvalue with rfl | hvalue
      · exact ⟨member, List.mem_cons_self, hfirst⟩
      · obtain ⟨other, hother, hread⟩ := ih hothers hvalue
        exact ⟨other, List.mem_cons_of_mem member hother, hread⟩

/-- Whatever value a sound document has, it is legible and canonical. -/
theorem Sound.value? {depth : Nat} {document : Document} (h : Sound depth document) {value : Json}
    (hvalue : document.value? = some value) :
    Legible (fun _ => True) depth value ∧ Canonical value := by
  refine ⟨?_, canonical_of_value? hvalue⟩
  induction h generalizing value with
  | unreadable => exact absurd hvalue nofun
  | null => exact Option.some.inj hvalue ▸ .null _
  | bool => exact Option.some.inj hvalue ▸ .bool _ _
  | integer _ hword => exact Option.some.inj hvalue ▸ .integer _ hword
  | double => exact Option.some.inj hvalue ▸ .double _ trivial
  | string => exact Option.some.inj hvalue ▸ .string _ _
  | array _ ih =>
      rw [Document.value?, Option.map_eq_some_iff] at hvalue
      obtain ⟨values, hvalues, rfl⟩ := hvalue
      refine .array fun item hitem => ?_
      obtain ⟨part, hpart, hvalue⟩ := mem_itemValues? hvalues hitem
      exact ih part hpart hvalue
  | object _ ih =>
      rw [Document.value?, Option.map_eq_some_iff] at hvalue
      obtain ⟨values, hvalues, rfl⟩ := hvalue
      refine .object fun member hmember => ?_
      obtain ⟨part, hpart, hvalue⟩ :=
        mem_memberValues? hvalues (Fields.mem_of_mem_entries_ofList hmember)
      exact ih part hpart hvalue

end Document

end JobGraph.Json
