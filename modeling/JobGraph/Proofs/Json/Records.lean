import JobGraph.Json.Decoding
import JobGraph.Proofs.Json.Fields
import JobGraph.Proofs.Json.Values
import JobGraph.Proofs.Steps

/-!
# Records as objects

A record is written as an object with a member for each part that is there.  `slotMembers` lists
the parts by their names, absent ones included, and reading the names back gives the same list: so
a record is read as it was written when each of its parts is.  Where no name is repeated, reading asks
for what is found under a name and nothing else, so the order of the members does not matter, and there may
be others among them.

What is read of a sound document is sound, and numbers are within their bounds.
-/

namespace JobGraph.Json

/-! ## Slots -/

/-- The members of a record, of which absent parts are left out. -/
def slotMembers (slots : List (String × Option Json)) : List (String × Json) :=
  slots.flatMap fun slot => optional slot.1 (fun value => value) slot.2

theorem optional_map {α : Type} (name : String) (encode : α → Json) (part : Option α) :
    optional name (fun value => value) (part.map encode) = optional name encode part := by
  cases part <;> rfl

theorem mem_slotMembers {slots : List (String × Option Json)} {member : String × Json} :
    member ∈ slotMembers slots ↔ (member.1, some member.2) ∈ slots := by
  rw [slotMembers, List.mem_flatMap]
  constructor
  · rintro ⟨⟨name, part⟩, hslot, hmember⟩
    cases part with
    | none => exact absurd hmember List.not_mem_nil
    | some value =>
        rw [optional, List.mem_singleton] at hmember
        rwa [hmember]
  · exact fun hslot => ⟨_, hslot, List.mem_singleton_self _⟩

theorem slotMembers_cons (slot : String × Option Json) (slots : List (String × Option Json)) :
    slotMembers (slot :: slots) = optional slot.1 (fun value => value) slot.2 ++ slotMembers slots :=
  List.flatMap_cons

theorem names_slotMembers (slots : List (String × Option Json)) :
    ((slotMembers slots).map Prod.fst).Sublist (slots.map Prod.fst) := by
  induction slots with
  | nil => exact .slnil
  | cons slot slots ih =>
      obtain ⟨name, part⟩ := slot
      rw [slotMembers_cons, List.map_append]
      cases part with
      | none => exact ih.cons name
      | some value => exact ih.cons_cons name

/-- A record says under a name what the part of that name is. -/
theorem lookup_slotMembers {slots : List (String × Option Json)}
    (hnames : (slots.map Prod.fst).Nodup) (name : String) :
    (slotMembers slots).lookup name = (slots.lookup name).join := by
  refine Option.ext fun value => ?_
  rw [lookup_eq_some_iff_mem (hnames.sublist (names_slotMembers slots)), mem_slotMembers,
    ← lookup_eq_some_iff_mem hnames, Option.join_eq_some_iff]

/-- A record is legible when its parts are. -/
theorem Legible.record {allowed : Float → Prop} {depth : Nat} {slots : List (String × Option Json)}
    (h : ∀ slot ∈ slots, ∀ value ∈ slot.2, Legible allowed depth value) :
    Legible allowed (depth + 1) (.object (slotMembers slots)) :=
  .object fun member hmember => h _ (mem_slotMembers.1 hmember) member.2 rfl

/-- An array of texts is legible. -/
theorem legible_ofTexts (allowed : Float → Prop) (depth : Nat) (texts : List String) :
    Legible allowed (depth + 1) (ofTexts texts) := by
  refine .array fun item hitem => ?_
  obtain ⟨text, -, rfl⟩ := List.mem_map.1 hitem
  exact .string _ _

namespace Document

/-! ## Reading an object by its names -/

section Names

variable {members : List (String × Document)}

theorem occurrences_of_nodup (hnames : (members.map Prod.fst).Nodup) (name : String) :
    occurrences members name = (members.lookup name).toList := by
  induction members with
  | nil => rfl
  | cons member rest ih =>
      obtain ⟨key, value⟩ := member
      rw [List.map_cons, List.nodup_cons] at hnames
      rw [occurrences, List.filterMap_cons, lookup_cons_eq_ite]
      by_cases hname : name = key
      · subst hname
        have hrest : occurrences rest name = [] := by
          rw [ih hnames.2, lookup_eq_none_of_not_mem hnames.1]
          rfl
        rw [if_pos rfl, if_pos rfl]
        exact congrArg (value :: ·) hrest
      · rw [if_neg (Ne.symm hname), if_neg hname]
        exact ih hnames.2

/-- Where no name is repeated, a field is what is found under its name. -/
theorem objectFields?_of_nodup (hnames : (members.map Prod.fst).Nodup) (names : List String) :
    objectFields? names members = some (names.map fun name => members.lookup name) := by
  refine mapM_eq_some_map fun name _ => ?_
  rw [single?, occurrences_of_nodup hnames]
  cases members.lookup name <;> rfl

theorem lookup_documentMembers (members : List (String × Json)) (name : String) :
    (documentMembers members).lookup name = (members.lookup name).map document := by
  induction members with
  | nil => rfl
  | cons member rest ih =>
      obtain ⟨key, value⟩ := member
      rw [documentMembers, lookup_cons_eq_ite, lookup_cons_eq_ite, ih]
      split <;> rfl

theorem names_documentMembers (members : List (String × Json)) :
    (documentMembers members).map Prod.fst = members.map Prod.fst := by
  rw [documentMembers_eq, List.map_map]
  rfl

/-- The fields of an object whose names are distinct, when it says of each what its part is. -/
theorem objectFields?_of_lookup {members : List (String × Json)}
    (hnames : (members.map Prod.fst).Nodup) {slots : List (String × Option Json)}
    (h : ∀ slot ∈ slots, members.lookup slot.1 = slot.2) :
    objectFields? (slots.map Prod.fst) (documentMembers members) =
      some (slots.map fun slot => slot.2.map document) := by
  rw [objectFields?_of_nodup (by rwa [names_documentMembers]), List.map_map]
  refine congrArg some (List.map_congr_left fun slot hslot => ?_)
  rw [Function.comp_apply, lookup_documentMembers, h slot hslot]

end Names

/-! ## Reading a record that was written -/

/-- The parts of a record that was written, in the order of the names. -/
theorem objectFields?_slotMembers {slots : List (String × Option Json)}
    (hnames : (slots.map Prod.fst).Nodup) :
    objectFields? (slots.map Prod.fst) (documentMembers (slotMembers slots)) =
      some (slots.map fun slot => slot.2.map document) := by
  refine objectFields?_of_lookup (hnames.sublist (names_slotMembers slots)) fun slot hslot => ?_
  rw [lookup_slotMembers hnames, (lookup_eq_some_iff_mem hnames).2 hslot]
  rfl

theorem fields?_record {slots : List (String × Option Json)} (hnames : (slots.map Prod.fst).Nodup) :
    fields? (slots.map Prod.fst) (Json.object (slotMembers slots)).document =
        some (slots.map fun slot => slot.2.map document) ∧
      allFields? (slots.map Prod.fst) (Json.object (slotMembers slots)).document =
        some (slots.map fun slot => slot.2.map document) :=
  ⟨objectFields?_slotMembers hnames, objectFields?_slotMembers hnames⟩

/-- An array is read item by item. -/
theorem list?_map {α β : Type} {item? : Document → Option β} {encode : α → Json} {read : α → β}
    {items : List α} (h : ∀ item ∈ items, item? (encode item).document = some (read item)) :
    list? item? (Json.array (items.map encode)).document = some (items.map read) := by
  rw [document, documentItems_eq, list?, List.map_map, List.mapM_map]
  exact mapM_eq_some_map h

theorem list?_map_self {α : Type} {item? : Document → Option α} {encode : α → Json}
    {items : List α} (h : ∀ item ∈ items, item? (encode item).document = some item) :
    list? item? (Json.array (items.map encode)).document = some items := by
  rw [list?_map h, List.map_id']

theorem list?_ofTexts (texts : List String) :
    list? text? (ofTexts texts).document = some texts :=
  list?_map_self fun _ _ => rfl

theorem natural?_ofNat {bound n : Nat} (h : n < bound) :
    natural? (bound - 1) (ofNat n).document = some n := by
  rw [ofNat, document, natural?, if_pos ⟨Int.natCast_nonneg n, Nat.le_sub_one_of_lt h⟩,
    Int.toNat_natCast]

/-- A part that may be absent is read as it was written, unless it was written as `null`. -/
theorem nullable_map {α : Type} {read? : Document → Option α} {encode : α → Json} {part : Option α}
    (h : ∀ value ∈ part, (encode value).document ≠ .null ∧
      read? (encode value).document = some value) :
    nullable read? ((part.map encode).map document) = some part := by
  cases part with
  | none => rfl
  | some value =>
      obtain ⟨hnull, hread⟩ := h value rfl
      rw [Option.map_some, Option.map_some, nullable, hread]
      · rfl
      · exact fun heq => hnull heq

/-! ## What an object says -/

/-- What a document says under a name: the value of the last member of that name. -/
def said? : Document → String → Option Json
  | .object members, name => (members.reverse.lookup name).bind value?
  | _, _ => none

theorem exists_of_said? {document : Document} {name : String} {value : Json}
    (h : document.said? name = some value) :
    ∃ members part, document = .object members ∧ (name, part) ∈ members ∧
      part.value? = some value := by
  cases document with
  | object members =>
      obtain ⟨part, hlookup, hvalue⟩ := Option.bind_eq_some_iff.1 h
      obtain ⟨before, after, hmembers, -⟩ := List.lookup_eq_some_iff.1 hlookup
      refine ⟨members, part, rfl, ?_, hvalue⟩
      rw [← List.mem_reverse, hmembers]
      exact List.mem_append_right before List.mem_cons_self
  | _ => exact absurd h nofun

/-- Values are read member by member. -/
theorem forall₂_of_memberValues? {members : List (String × Document)}
    {values : List (String × Json)} (h : memberValues? members = some values) :
    List.Forall₂ (fun member value => member.1 = value.1 ∧ member.2.value? = some value.2)
      members values := by
  induction members generalizing values with
  | nil =>
      rw [← Option.some.inj h]
      exact .nil
  | cons member rest ih =>
      simp only [memberValues?, Option.bind_eq_bind, Option.bind_eq_some_iff,
        Option.some.injEq] at h
      obtain ⟨first, hfirst, others, hothers, rfl⟩ := h
      exact .cons ⟨rfl, hfirst⟩ (ih hothers)

/-- Fields that are made of the values of an object say what the object says. -/
theorem get?_ofList_of_memberValues? {members : List (String × Document)}
    {values : List (String × Json)} (h : memberValues? members = some values) (name : String) :
    (Fields.ofList values).get? name = (object members).said? name := by
  have hpairs := List.forall₂_reverse_iff.2 (forall₂_of_memberValues? h)
  rw [Fields.get?_ofList, said?]
  -- both lists are searched from their ends, so they are turned round together
  generalize members.reverse = members, values.reverse = values at hpairs
  induction hpairs with
  | nil => rfl
  | @cons member value _ _ hpair _ ih =>
      obtain ⟨key, part⟩ := member
      obtain ⟨_, read⟩ := value
      obtain ⟨rfl, hvalue⟩ := hpair
      rw [lookup_cons_eq_ite, lookup_cons_eq_ite]
      split
      · exact hvalue.symm
      · exact ih

/-! ## What a record is read from -/

/-- The parts of a record are parts of the document. -/
theorem Sound.of_mem_allFields? {names : List String} {document : Document} {depth : Nat}
    {parts : List (Option Document)} (h : Sound (depth + 1) document)
    (hparts : allFields? names document = some parts) {part : Document} (hpart : some part ∈ parts) :
    Sound depth part := by
  cases h with
  | array hitems =>
      rw [allFields?] at hparts
      split at hparts
      · rw [← Option.some.inj hparts] at hpart
        obtain ⟨item, hitem, heq⟩ := List.mem_map.1 hpart
        rw [← Option.some.inj heq]
        exact hitems item hitem
      · exact absurd hparts nofun
  | @object _ members hmembers =>
      rw [allFields?, objectFields?] at hparts
      obtain ⟨name, -, hsingle⟩ := exists_of_mem_mapM hparts hpart
      have hoccurs : part ∈ occurrences members name := by
        unfold single? at hsingle
        split at hsingle
        · exact absurd hsingle nofun
        · rename_i value hvalue
          rw [hvalue, ← Option.some.inj (Option.some.inj hsingle)]
          exact List.mem_singleton_self _
        · exact absurd hsingle nofun
      obtain ⟨member, hmember, heq⟩ := List.mem_filterMap.1 hoccurs
      split at heq
      · rw [← Option.some.inj heq]
        exact hmembers member hmember
      · exact absurd heq nofun
  | _ => exact absurd hparts nofun

/-- The items of an array are parts of the document. -/
theorem exists_of_mem_list? {α : Type} {item? : Document → Option α} {document : Document}
    {items : List α} (hitems : list? item? document = some items) {item : α} (hitem : item ∈ items) :
    ∃ parts, document = .array parts ∧ ∃ part ∈ parts, item? part = some item := by
  cases document with
  | array parts => exact ⟨parts, rfl, exists_of_mem_mapM hitems hitem⟩
  | _ => exact absurd hitems nofun

theorem Sound.of_array {depth : Nat} {parts : List Document} (h : Sound (depth + 1) (.array parts)) :
    ∀ part ∈ parts, Sound depth part := by
  cases h with
  | array hparts => exact hparts

theorem lt_of_natural? {bound n : Nat} (hbound : 0 < bound) {document : Document}
    (h : natural? (bound - 1) document = some n) : n < bound := by
  unfold natural? at h
  split at h
  · split at h
    · rename_i hle
      rw [← Option.some.inj h]
      omega
    · exact absurd h nofun
  · exact absurd h nofun

/-- A part that may be absent was read from something that is not `null`. -/
theorem exists_of_nullable {α : Type} {read? : Document → Option α} {part : Option Document}
    {found : Option α} (h : nullable read? part = some found) {value : α} (hvalue : value ∈ found) :
    ∃ document, part = some document ∧ document ≠ .null ∧ read? document = some value := by
  unfold nullable at h
  split at h
  · rw [← Option.some.inj h] at hvalue
    exact absurd hvalue nofun
  · rw [← Option.some.inj h] at hvalue
    exact absurd hvalue nofun
  · rename_i document hnull
    obtain ⟨read, hread, heq⟩ := Option.map_eq_some_iff.1 h
    rw [← heq, Option.mem_some_iff] at hvalue
    exact ⟨document, rfl, fun hdocument => hnull hdocument, hvalue ▸ hread⟩

theorem exists_of_required {α : Type} {read? : Document → Option α} {part : Option Document}
    {value : α} (h : required read? part = some value) :
    ∃ document, part = some document ∧ read? document = some value := by
  cases part with
  | none => exact absurd h nofun
  | some document => exact ⟨document, rfl, h⟩

end Document

end JobGraph.Json
