import JobGraph.Job.Json
import JobGraph.Proofs.Json.Parsing
import JobGraph.Proofs.Json.Records

/-!
# Reading jobs again

A job is written as one object, in which its own fields stand beside what else is said about it.  Reading
tells the two apart by their names alone.  So a job comes back as it was written when nothing else goes by
the name of a field, `Fits`, and the marks of its views, which are not written, are off.

A job that was read is such a job: its own names were taken out before the rest was kept.  An update that is
such a job brings no such name either, stripping only takes names away, and marks have no names.  So every
job that came about in these ways, an `Origin`, is read again as it was written, as an object in either order
of its members and as a text; and what it says under any other name is what was last said.
-/

namespace JobGraph

open Json (Document Canonical Legible ReadsBack slotMembers)

theorem JobStatus.decode?_name (status : JobStatus) :
    decode? (Json.string status.name).document = some status :=
  ofName?_name status

namespace Job

variable {allowed : Json → Prop} {job update : Job}

/-- A job with these marks. -/
def mark (isSelected isHovered : Bool) (job : Job) : Job :=
  { job with isSelected, isHovered }

/-- A job without marks. -/
def unmarked (job : Job) : Job :=
  job.mark false false

/-- A job whose index fits into 64 bits and of which nothing else goes by the name of a field; what else is
said are allowed values. -/
structure Fits (allowed : Json → Prop) (job : Job) : Prop where
  index_lt : ∀ index ∈ job.index, index < UInt64.size
  get?_fieldName : ∀ name ∈ fieldNames, job.extra.get? name = none
  values : ∀ name, ∀ value ∈ job.extra.get? name, allowed value

/-! ## What a job says -/

/-- The fields of a job by their names. -/
def slots (job : Job) : List (String × Option Json) :=
  [("name", some (.string job.name)), ("id", job.id.map Json.string),
    ("status", some (.string job.status.name)), ("parentNames", some (.ofTexts job.parentNames)),
    ("childNames", some (.ofTexts job.childNames)), ("index", job.index.map Json.ofNat)]

theorem names_slots (job : Job) : job.slots.map Prod.fst = fieldNames :=
  rfl

theorem nodup_names_slots (job : Job) : (job.slots.map Prod.fst).Nodup := by
  rw [names_slots]
  decide

theorem members_eq (job : Job) : job.members = slotMembers job.slots ++ job.extra.entries := by
  simp only [members, slots, slotMembers, List.flatMap_cons, List.flatMap_nil, Json.optional_map,
    List.append_assoc, List.append_nil]
  rfl

theorem lookup_members (job : Job) (name : String) :
    job.members.lookup name = (job.slots.lookup name).join.or (job.extra.get? name) := by
  rw [members_eq, List.lookup_append, Json.lookup_slotMembers job.nodup_names_slots]
  rfl

/-- Under any other name than those of the fields a job says what else is said about it. -/
theorem lookup_members_of_not_mem {name : String} (hname : name ∉ fieldNames) :
    job.members.lookup name = job.extra.get? name := by
  rw [lookup_members, Json.lookup_eq_none_of_not_mem (by rwa [names_slots])]
  rfl

theorem Fits.lookup_members_slot (h : job.Fits allowed) {slot : String × Option Json}
    (hslot : slot ∈ job.slots) : job.members.lookup slot.1 = slot.2 := by
  have hname : slot.1 ∈ fieldNames := by
    rw [← names_slots job]
    exact List.mem_map_of_mem hslot
  rw [lookup_members, h.get?_fieldName slot.1 hname, Option.or_none,
    (Json.lookup_eq_some_iff_mem job.nodup_names_slots).2 hslot]
  rfl

/-- **Names.**  No name is written twice. -/
theorem Fits.nodup_names (h : job.Fits allowed) : (job.members.map Prod.fst).Nodup := by
  rw [members_eq, List.map_append, List.nodup_append]
  refine ⟨job.nodup_names_slots.sublist (Json.names_slotMembers _),
    job.extra.ascending.nodup_names, ?_⟩
  -- a name that stands in both halves would be that of a field and of something else
  rintro name hfield _ hother rfl
  have hname : name ∈ fieldNames := by
    rw [← names_slots job]
    exact (Json.names_slotMembers _).subset hfield
  obtain ⟨⟨_, value⟩, hmember, rfl⟩ := List.mem_map.1 hother
  have hsome := Json.Fields.mem_entries_iff.1 hmember
  rw [h.get?_fieldName _ hname] at hsome
  exact absurd hsome nofun

/-! ## Reading what a job says -/

/-- Members that say what a job says, each name once and in whatever order. -/
structure Tells (members : List (String × Json)) (job : Job) : Prop where
  nodup_names : (members.map Prod.fst).Nodup
  lookup_eq : ∀ name, members.lookup name = job.members.lookup name

theorem Fits.tells_members (h : job.Fits allowed) : Tells job.members job :=
  ⟨h.nodup_names, fun _ => rfl⟩

theorem Fits.tells_payload (h : job.Fits allowed) :
    Tells (Json.Fields.ofList job.members).entries job := by
  refine ⟨(Json.Fields.ofList job.members).ascending.nodup_names, fun name => ?_⟩
  have hfound := Json.Fields.get?_ofList job.members name
  rwa [← Json.lookup_perm h.nodup_names (List.reverse_perm job.members).symm] at hfound

namespace Tells

variable {members : List (String × Json)}

/-- The members that are no fields are read as what else is said. -/
theorem memberValues? (h : Tells members job) (hfits : job.Fits Canonical) :
    Document.memberValues? (otherMembers (Json.documentMembers members)) =
      some (members.filter fun member => !fieldNames.contains member.1) := by
  rw [otherMembers, Json.documentMembers_eq, List.filter_map]
  refine Document.memberValues?_map_document fun member hmember => ?_
  obtain ⟨hmember, hname⟩ := List.mem_filter.1 hmember
  have hfound := (Json.lookup_eq_some_iff_mem h.nodup_names).2 hmember
  rw [h.lookup_eq, lookup_members_of_not_mem (by simpa using hname)] at hfound
  exact Document.value?_document (hfits.values member.1 member.2 hfound)

theorem ofList_filter (h : Tells members job) (hfits : job.Fits allowed) :
    Json.Fields.ofList (members.filter fun member => !fieldNames.contains member.1) = job.extra := by
  have hnames : ((members.filter fun member => !fieldNames.contains member.1).map Prod.fst).Nodup :=
    h.nodup_names.sublist (List.filter_sublist.map Prod.fst)
  refine Json.Fields.ext_get? fun name => ?_
  calc (Json.Fields.ofList (members.filter fun member => !fieldNames.contains member.1)).get? name
    _ = (members.filter fun member => !fieldNames.contains member.1).lookup name := by
        rw [Json.Fields.get?_ofList, Json.lookup_perm hnames (List.reverse_perm _).symm]
    _ = if !fieldNames.contains name then job.members.lookup name else none := by
        rw [Json.lookup_filter (fun name => !fieldNames.contains name), h.lookup_eq]
    _ = job.extra.get? name := by
        by_cases hname : name ∈ fieldNames
        · rw [hfits.get?_fieldName name hname, if_neg (by simpa using hname)]
        · rw [if_pos (by simpa using hname), lookup_members_of_not_mem hname]

/-- An object that says what a job says is read as the job. -/
theorem decode?_object (h : Tells members job) (hfits : job.Fits Canonical) :
    decode? (Json.object members).document = some job.unmarked := by
  have hid : Document.nullable Document.text? ((job.id.map Json.string).map Json.document) =
      some job.id := Document.nullable_map fun _ _ => ⟨nofun, rfl⟩
  have hindex : Document.nullable Document.natural64? ((job.index.map Json.ofNat).map Json.document) =
      some job.index := Document.nullable_map fun index hindex =>
    ⟨nofun, Document.natural?_ofNat (hfits.index_lt index hindex)⟩
  have hfields := Document.objectFields?_of_lookup h.nodup_names fun slot hslot =>
    (h.lookup_eq slot.1).trans (hfits.lookup_members_slot hslot)
  rw [names_slots] at hfields
  rw [Json.document, decode?, hfields]
  simp only [slots, List.map_cons, List.map_nil, Option.map_some, Option.bind_eq_bind,
    Option.bind_some, Document.withDefault, hid, hindex, JobStatus.decode?_name,
    Document.list?_ofTexts, h.memberValues? hfits, h.ofList_filter hfits]
  rfl

end Tells

/-- A job is legible, one level above what else is said about it. -/
theorem Fits.legible_toJson {depth : Nat} (h : job.Fits (Legible (fun _ => True) (depth + 1))) :
    Legible (fun _ => True) (depth + 2) job.toJson := by
  have htext : ∀ text : Option String,
      ∀ value ∈ text.map Json.string, Legible (fun _ => True) (depth + 1) value := by
    intro text value hvalue
    obtain ⟨_, -, rfl⟩ := Option.map_eq_some_iff.1 hvalue
    exact .string _ _
  have hindex : ∀ value ∈ job.index.map Json.ofNat, Legible (fun _ => True) (depth + 1) value := by
    intro value hvalue
    obtain ⟨index, hindex, rfl⟩ := Option.map_eq_some_iff.1 hvalue
    exact .integer _ (Json.isWord_of_lt (h.index_lt index hindex))
  have hslots : ∀ slot ∈ job.slots, ∀ value ∈ slot.2, Legible (fun _ => True) (depth + 1) value := by
    simp only [slots, List.forall_mem_cons, Option.mem_some_iff, forall_eq']
    exact ⟨.string _ _, htext _, .string _ _, Json.legible_ofTexts _ _ _, Json.legible_ofTexts _ _ _,
      hindex, nofun⟩
  rw [toJson, members_eq]
  refine .object fun member hmember => ?_
  rcases List.mem_append.1 hmember with hfield | hother
  · exact hslots _ (Json.mem_slotMembers.1 hfield) member.2 rfl
  · exact h.values member.1 member.2 (Json.Fields.mem_entries_iff.1 hother)

/-! ## Where jobs come from -/

/-- What a job is read from: an object without repeated fields, whose other members have values. -/
theorem exists_of_decode? {document : Document} (h : decode? document = some job) :
    ∃ members values, document = .object members ∧
      Document.memberValues? (otherMembers members) = some values ∧
      job.extra = .ofList values ∧ (∀ index ∈ job.index, index < UInt64.size) := by
  cases document with
  | object members =>
      obtain ⟨fields, -, h⟩ := Option.bind_eq_some_iff.1 h
      split at h
      · -- of the fields only the index has a bound, and the last part is what else is said
        simp only [Option.bind_eq_bind, Option.bind_eq_some_iff, Option.some.injEq] at h
        obtain ⟨_, -, _, -, _, -, _, -, _, -, index, hindex, values, hvalues, rfl⟩ := h
        refine ⟨members, values, rfl, hvalues, rfl, fun n hn => ?_⟩
        obtain ⟨_, -, -, hread⟩ := Document.exists_of_nullable hindex hn
        exact Document.lt_of_natural? (by decide) hread
      · exact absurd h nofun
  | _ => exact absurd h nofun

/-- Under the name of a field nothing else is kept, and under any other name what the object says. -/
theorem get?_extra_of_decode? {document : Document} (h : decode? document = some job)
    (name : String) :
    job.extra.get? name = if name ∈ fieldNames then none else document.said? name := by
  obtain ⟨members, values, rfl, hvalues, hextra, -⟩ := exists_of_decode? h
  rw [hextra, Document.get?_ofList_of_memberValues? hvalues, Document.said?, Document.said?,
    otherMembers, ← List.filter_reverse, Json.lookup_filter (fun name => !fieldNames.contains name)]
  by_cases hname : name ∈ fieldNames
  · rw [if_pos hname, if_neg (by simpa using hname)]
    rfl
  · rw [if_neg hname, if_pos (by simpa using hname)]

theorem fits_of_decode? {document : Document} (h : decode? document = some job)
    (hallowed : ∀ name, ∀ value ∈ document.said? name, allowed value) : job.Fits allowed := by
  obtain ⟨_, _, -, -, -, hindex⟩ := exists_of_decode? h
  refine ⟨hindex, fun name hname => ?_, fun name value hvalue => ?_⟩
  · rw [get?_extra_of_decode? h, if_pos hname]
  · rw [get?_extra_of_decode? h] at hvalue
    split at hvalue
    · exact absurd hvalue nofun
    · exact hallowed name value hvalue

theorem Fits.merge (hjob : job.Fits allowed) (hupdate : update.Fits allowed) :
    (job.merge update).Fits allowed := by
  refine ⟨hjob.index_lt, fun name hname => ?_, fun name value hvalue => ?_⟩
  · rw [Job.merge, Json.Fields.get?_overwrite, hjob.get?_fieldName name hname,
      hupdate.get?_fieldName name hname]
    rfl
  · rw [Job.merge, Json.Fields.get?_overwrite, Option.mem_def, Option.or_eq_some_iff] at hvalue
    rcases hvalue with hvalue | ⟨-, hvalue⟩
    · exact hupdate.values name value hvalue
    · exact hjob.values name value hvalue

theorem get?_extra_strip (job : Job) (name : String) :
    job.strip.extra.get? name = if name ∈ bulkyFields then none else job.extra.get? name :=
  Json.Fields.get?_foldl_erase bulkyFields job.extra name

theorem Fits.strip (h : job.Fits allowed) : job.strip.Fits allowed := by
  refine ⟨h.index_lt, fun name hname => ?_, fun name value hvalue => ?_⟩
  · rw [get?_extra_strip, h.get?_fieldName name hname, ite_self]
  · rw [get?_extra_strip] at hvalue
    split at hvalue
    · exact absurd hvalue nofun
    · exact h.values name value hvalue

theorem Fits.mark (h : job.Fits allowed) (isSelected isHovered : Bool) :
    (job.mark isSelected isHovered).Fits allowed :=
  ⟨h.index_lt, h.get?_fieldName, h.values⟩

/-- How a job came about: it was read, an update was merged into it, it was stripped, or a view marked it. -/
inductive Origin where
  | read (document : Document)
  | merge (job update : Origin)
  | strip (job : Origin)
  | mark (isSelected isHovered : Bool) (job : Origin)

namespace Origin

/-- The job that came about; nothing if a document is that of no job. -/
def job? : Origin → Option Job
  | read document => decode? document
  | merge job update => do
      let job ← job.job?
      let update ← update.job?
      some (job.merge update)
  | strip job => job.job?.map Job.strip
  | mark isSelected isHovered job => job.job?.map (Job.mark isSelected isHovered)

/-- The documents that were read. -/
def documents : Origin → List Document
  | read document => [document]
  | merge job update => job.documents ++ update.documents
  | strip job => job.documents
  | mark _ _ job => job.documents

/-- What was last said under a name, by the job or an update, if it was not stripped since. -/
def said? : Origin → String → Option Json
  | read document, name => document.said? name
  | merge job update, name => (update.said? name).or (job.said? name)
  | strip job, name => if name ∈ bulkyFields then none else job.said? name
  | mark _ _ job, name => job.said? name

variable {origin : Origin}

/-- Whatever a job came from, nothing else about it goes by the name of a field. -/
theorem fits (h : origin.job? = some job)
    (hallowed : ∀ document ∈ origin.documents, ∀ name, ∀ value ∈ document.said? name,
      allowed value) : job.Fits allowed := by
  induction origin generalizing job with
  | read document => exact fits_of_decode? h (hallowed document (List.mem_singleton_self _))
  | merge old update ihold ihupdate =>
      obtain ⟨_, hold, h⟩ := Option.bind_eq_some_iff.1 h
      obtain ⟨_, hupdate, h⟩ := Option.bind_eq_some_iff.1 h
      obtain ⟨hdocuments, hdocuments'⟩ := List.forall_mem_append.1 hallowed
      rw [← Option.some.inj h]
      exact (ihold hold hdocuments).merge (ihupdate hupdate hdocuments')
  | strip old ih =>
      obtain ⟨_, hold, rfl⟩ := Option.map_eq_some_iff.1 h
      exact (ih hold hallowed).strip
  | mark isSelected isHovered old ih =>
      obtain ⟨_, hold, rfl⟩ := Option.map_eq_some_iff.1 h
      exact (ih hold hallowed).mark isSelected isHovered

/-- What else is known of a job is what was last said. -/
theorem get?_extra (h : origin.job? = some job) {name : String} (hname : name ∉ fieldNames) :
    job.extra.get? name = origin.said? name := by
  induction origin generalizing job with
  | read document => rw [get?_extra_of_decode? h, if_neg hname, said?]
  | merge old update ihold ihupdate =>
      obtain ⟨_, hold, h⟩ := Option.bind_eq_some_iff.1 h
      obtain ⟨_, hupdate, h⟩ := Option.bind_eq_some_iff.1 h
      rw [← Option.some.inj h, Job.merge, Json.Fields.get?_overwrite, ihold hold, ihupdate hupdate, said?]
  | strip old ih =>
      obtain ⟨_, hold, rfl⟩ := Option.map_eq_some_iff.1 h
      rw [get?_extra_strip, ih hold, said?]
  | mark _ _ old ih =>
      obtain ⟨marked, hold, rfl⟩ := Option.map_eq_some_iff.1 h
      have hmarked : marked.extra.get? name = old.said? name := ih hold
      exact hmarked

theorem fits_canonical (h : origin.job? = some job) : job.Fits Canonical := by
  refine fits h fun document _ name value hvalue => ?_
  obtain ⟨_, _, -, -, hread⟩ := Document.exists_of_said? hvalue
  exact Document.canonical_of_value? hread

/-- A job that came from sound documents is legible. -/
theorem legible_toJson (h : origin.job? = some job)
    (hsound : ∀ document ∈ origin.documents, document.Sound Json.nestingLimit) :
    Legible (fun _ => True) Json.nestingLimit job.toJson := by
  -- the object that was read took one level, and so does the object that is written
  have hfits : job.Fits (Legible (fun _ => True) (Json.nestingLimit - 2 + 1)) := by
    refine fits h fun document hdocument name value hvalue => ?_
    obtain ⟨members, part, rfl, hmember, hread⟩ := Document.exists_of_said? hvalue
    have hpart : part.Sound (Json.nestingLimit - 2 + 1) := by
      cases hsound _ hdocument with
      | object hmembers => exact hmembers _ hmember
    exact (hpart.value? hread).1
  exact hfits.legible_toJson

/-- **Rereading.**  A job that was read, or came about from such jobs by merging, stripping and marking,
is written without repeating a name, and is read again as it was but for the marks, from either object and,
if the documents were those of texts and the doubles are read back, from either text.  Under a name that is
none of a field's it says what was last said. -/
theorem reread_job? (h : origin.job? = some job) :
    (job.members.map Prod.fst).Nodup ∧
      decode? job.toJson.document = some job.unmarked ∧
      decode? job.payload.document = some job.unmarked ∧
      (∀ name, name ∉ fieldNames → job.toJson.get? name = origin.said? name ∧
        job.payload.get? name = origin.said? name) ∧
      ((∀ document ∈ origin.documents, document.Sound Json.nestingLimit) →
        (∀ x ∈ job.toJson.doubles, ReadsBack x) →
          read? job.toJson.compact = some job.unmarked ∧
            read? job.toJson.indented = some job.unmarked) := by
  have hfits := fits_canonical h
  have hobject : decode? job.toJson.document = some job.unmarked :=
    hfits.tells_members.decode?_object hfits
  have hpayload : decode? job.payload.document = some job.unmarked :=
    hfits.tells_payload.decode?_object hfits
  refine ⟨hfits.nodup_names, hobject, hpayload, fun name hname => ?_, fun hsound hdoubles => ?_⟩
  · have hsaid : job.toJson.get? name = origin.said? name :=
      (lookup_members_of_not_mem hname).trans (get?_extra h hname)
    exact ⟨hsaid, (hfits.tells_payload.lookup_eq name).trans hsaid⟩
  · obtain ⟨hcompact, hindented⟩ :=
      Document.read?_texts ((legible_toJson h hsound).of_doubles hdoubles)
    rw [read?, read?, hcompact, hindented]
    exact ⟨hobject, hobject⟩

/-- The document of a text. -/
def documentOf (text : String) : Document :=
  (Document.read? text).getD .unreadable

theorem sound_documentOf (text : String) : (documentOf text).Sound Json.nestingLimit := by
  rw [documentOf]
  cases hread : Document.read? text with
  | none => exact .unreadable _
  | some document => exact Document.sound_read? hread

/-- A job with a status as an object, an id that is null, a name that is repeated among the others and a
mark that is none. -/
def plannedText : String :=
  "\x7b\"runtime\": 1, \"name\": \"a\", \"status\": \x7b\"RUNNING\": null\x7d, \"id\": null, \"selected\": true,
    \"runtime\": \x7b\"z\": [0.5], \"b\": null\x7d, \"metrics\": \x7b\"bytes\": 1\x7d, \"isComplete\": false\x7d"

/-- An update with a rank of its own and no name. -/
def finishedText : String :=
  "\x7b\"name\": \"\", \"id\": \"1\", \"status\": \"COMPLETE\", \"childNames\": [\"b\"], \"index\": 3,
    \"isComplete\": \"true\"\x7d"

/-- The planned job, finished, stripped and selected. -/
def arrival : Origin :=
  .mark true false
    (.strip (.merge (.read (documentOf plannedText)) (.read (documentOf finishedText))))

/-- The job that this is. -/
def arrived : Job where
  name := "a"
  id := some "1"
  status := .complete
  parentNames := []
  childNames := ["b"]
  index := none
  isSelected := true
  isHovered := false
  extra := .ofList
    [("isComplete", .string "true"), ("runtime", .object [("b", .null), ("z", .array [.double 0.5])]),
      ("selected", .bool true)]

set_option maxRecDepth 2000 in
theorem job?_arrival : arrival.job? = some arrived := by
  -- the characters are handed over as such, since decoding them from bytes takes long
  have hplanned : plannedText.toList = _ := String.toList_ofList
  have hfinished : finishedText.toList = _ := String.toList_ofList
  simp only [arrival, job?, documentOf, Document.read?, hplanned, hfinished]
  decide +kernel

theorem reread_arrived :
    arrival.job? = some arrived ∧
      (arrived.members.map Prod.fst).Nodup ∧
      decode? arrived.toJson.document = some arrived.unmarked ∧
      decode? arrived.payload.document = some arrived.unmarked ∧
      (∀ name, name ∉ fieldNames → arrived.toJson.get? name = arrival.said? name ∧
        arrived.payload.get? name = arrival.said? name) ∧
      read? arrived.toJson.compact = some arrived.unmarked ∧
      read? arrived.toJson.indented = some arrived.unmarked := by
  have hsound : ∀ document ∈ arrival.documents, document.Sound Json.nestingLimit :=
    List.forall_mem_cons.2 ⟨sound_documentOf _, List.forall_mem_singleton.2 (sound_documentOf _)⟩
  have hdoubles : ∀ x ∈ arrived.toJson.doubles, ReadsBack x := by decide +kernel
  obtain ⟨hnames, hobject, hpayload, hsaid, htexts⟩ := reread_job? job?_arrival
  exact ⟨job?_arrival, hnames, hobject, hpayload, hsaid, htexts hsound hdoubles⟩

end Origin

end Job

end JobGraph
