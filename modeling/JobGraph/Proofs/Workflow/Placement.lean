import JobGraph.Proofs.Graph.Coherence
import JobGraph.Proofs.Workflow.Confinement
import JobGraph.Proofs.Workflow.Loading

/-!
# Where jobs stand

A load gives every entry of a job list one node, and numbers the jobs by the ranks of their nodes.
From then on jobs may change, but they stay where they are: `Arranged`.

* **Nodes.**  The graph is the one that the list was laid out as, payloads apart.
* **Order.**  Each node occurs once among the jobs, first those with a rank, by rank, then the others
  in the order of the list.
* **Names and ranks.**  A job has the name of its node, and its index is the rank of the node.

An update may carry a name and an index of its own.  It goes to the job of that name, so it renames
none, and the index is never merged.
-/

namespace JobGraph

namespace Graph

variable {α : Type} {g : Graph α}

/-- The ranked nodes are the real nodes that have a rank. -/
theorem Placed.perm_ranking (h : Placed g) (hsubset : g.ranking ⊆ g.realKeys)
    (hnodup : g.realKeys.Nodup) :
    g.ranking.Perm (g.realKeys.filter fun key => (g.rankOf key).isSome) := by
  rw [List.perm_ext_iff_of_nodup h.nodup_ranking (hnodup.filter _)]
  intro key
  rw [List.mem_filter, Option.isSome_iff_exists, List.mem_iff_getElem?]
  constructor
  · rintro ⟨rank, hrank⟩
    exact ⟨hsubset (List.mem_of_getElem? hrank), rank, (h.rankOf_iff key rank).2 hrank⟩
  · rintro ⟨-, rank, hrank⟩
    exact ⟨rank, (h.rankOf_iff key rank).1 hrank⟩

end Graph

namespace Workflow

variable {w w' : Workflow} {entries : List JobEntry} {report : LayeringReport}

/-! ## Numbering -/

/-- The graph after a list of numbers was written into its jobs. -/
private def numberAll (g : Graph Job) (numbered : List (NodeKey × Nat)) : Graph Job :=
  numbered.foldl (fun g numbered =>
    g.modifyData numbered.1 fun job => { job with index := some numbered.2 }) g

private theorem data?_numberAll_of_not_mem {numbered : List (NodeKey × Nat)} {key : NodeKey}
    (hkey : key ∉ numbered.map Prod.fst) (g : Graph Job) :
    (numberAll g numbered).data? key = g.data? key := by
  induction numbered generalizing g with
  | nil => rfl
  | cons first rest ih =>
      rw [List.map_cons, List.mem_cons, not_or] at hkey
      rw [numberAll, List.foldl_cons]
      refine (ih hkey.2 _).trans ?_
      rw [Graph.data?_modifyData, if_neg hkey.1]

private theorem data?_numberAll_of_mem {numbered : List (NodeKey × Nat)} {key : NodeKey} {rank : Nat}
    (hnodup : (numbered.map Prod.fst).Nodup) (hmem : (key, rank) ∈ numbered) (g : Graph Job) :
    (numberAll g numbered).data? key =
      (g.data? key).map fun job => { job with index := some rank } := by
  induction numbered generalizing g with
  | nil => exact absurd hmem List.not_mem_nil
  | cons first rest ih =>
      rw [List.map_cons, List.nodup_cons] at hnodup
      rw [numberAll, List.foldl_cons]
      rcases List.mem_cons.1 hmem with rfl | hrest
      · refine (data?_numberAll_of_not_mem hnodup.1 _).trans ?_
        rw [Graph.data?_modifyData, if_pos rfl]
      · refine (ih hnodup.2 hrest _).trans ?_
        rw [Graph.data?_modifyData, if_neg]
        rintro rfl
        exact hnodup.1 (List.mem_map.2 ⟨_, hrest, rfl⟩)

/-- A placed job learns its rank. -/
theorem index_numberJobs {g : Graph Job} (h : Graph.Placed g) {key : NodeKey} {job : Job}
    (hjob : g.data? key = some job) (hindex : job.index = none) :
    (numberJobs g).data? key = some { job with index := g.rankOf key } := by
  have hkeys : g.ranking.zipIdx.map Prod.fst = g.ranking := by
    rw [← List.unzip_fst, List.unzip_zipIdx_eq_prod]
  show (numberAll g g.ranking.zipIdx).data? key = _
  cases hrank : g.rankOf key with
  | none =>
      rw [data?_numberAll_of_not_mem, hjob, ← hindex]
      rw [hkeys, List.mem_iff_getElem?]
      rintro ⟨rank, hplace⟩
      rw [(h.rankOf_iff key rank).2 hplace] at hrank
      exact absurd hrank (Option.some_ne_none rank)
  | some rank =>
      have hnodup : (g.ranking.zipIdx.map Prod.fst).Nodup := by
        rw [hkeys]
        exact h.nodup_ranking
      have hplace : (key, rank) ∈ g.ranking.zipIdx :=
        List.mk_mem_zipIdx_iff_getElem?.2 ((h.rankOf_iff key rank).1 hrank)
      rw [data?_numberAll_of_mem hnodup hplace, hjob, Option.map_some]

theorem withoutData_numberJobs (g : Graph Job) : (numberJobs g).withoutData = g.withoutData := by
  refine List.foldlRecOn (motive := fun next : Graph Job => next.withoutData = g.withoutData) _ _ rfl
    fun next hnext numbered _ => ?_
  rw [Graph.withoutData_modifyData, hnext]

/-! ## Arranged jobs -/

/-- The jobs of a list stand at the places that a layout of the list gave them. -/
structure Arranged (w : Workflow) (entries : List JobEntry) (laidOut : Graph Job) : Prop where
  /-- Nodes, edges, ranks, layers and the order on the layers are those of the layout. -/
  withoutData_eq : w.graph.withoutData = laidOut.withoutData
  realKeys_eq : w.graph.realKeys = List.range entries.length
  /-- Every node occurs once among the jobs. -/
  perm_jobKeys : w.jobKeys.Perm w.graph.realKeys
  /-- Those with a rank come first, then the others as they stand in the list. -/
  jobKeys_eq : w.jobKeys =
    w.graph.ranking ++ w.graph.realKeys.filter fun key => (w.graph.rankOf key).isNone
  rankOf_iff : ∀ key rank, w.graph.rankOf key = some rank ↔ w.graph.ranking[rank]? = some key
  /-- Every node of the order has its job in the list of jobs. -/
  jobs_eq : w.jobs.map some = w.jobKeys.map w.job?
  /-- A job has the name of its node and of its entry, and the rank of its node. -/
  job?_eq : ∀ key entry, entries[key]? = some entry → ∃ job, w.job? key = some job ∧
    job.name = entry.name ∧ w.graph.id? key = some job.name ∧ job.index = w.graph.rankOf key

/-- The order of the jobs of a graph that is laid out. -/
theorem perm_orderedKeys {g : Graph Job} (h : Graph.Placed g) (hsubset : g.ranking ⊆ g.realKeys)
    (hnodup : g.realKeys.Nodup) : (orderedKeys g).Perm g.realKeys := by
  refine ((h.perm_ranking hsubset hnodup).append_right _).trans ?_
  have hnone : (fun key => (g.rankOf key).isNone) = fun key => !(g.rankOf key).isSome := by
    funext key
    exact (Option.not_isSome (g.rankOf key)).symm
  rw [hnone]
  exact List.filter_append_perm _ _

/-- Jobs that are all there are listed without gaps. -/
theorem map_jobs_eq (h : ∀ key ∈ w.jobKeys, (w.job? key).isSome) :
    w.jobs.map some = w.jobKeys.map w.job? := by
  rw [jobs]
  generalize w.jobKeys = keys at h ⊢
  induction keys with
  | nil => rfl
  | cons key rest ih =>
      obtain ⟨job, hjob⟩ := Option.isSome_iff_exists.1 (h key List.mem_cons_self)
      rw [List.filterMap_cons_some hjob, List.map_cons, List.map_cons, hjob,
        ih fun other hother => h other (List.mem_cons_of_mem key hother)]

/-- A graph that was laid out has its jobs arranged once they learn their ranks. -/
theorem arranged_withGraph {g : Graph Job} (hreachable : Graph.Reachable g)
    (hrange : g.realKeys = List.range entries.length)
    (hunnumbered : ∀ key entry, entries[key]? = some entry → ∃ job, g.data? key = some job ∧
      job.name = entry.name ∧ g.id? key = some job.name ∧ job.index = none) :
    Arranged (w.withGraph g) entries g := by
  have hplaced := hreachable.consistent.toPlaced
  have hwithout : (w.withGraph g).graph.withoutData = g.withoutData := withoutData_numberJobs g
  have hranking : (w.withGraph g).graph.ranking = g.ranking :=
    Graph.ranking_of_withoutData_eq hwithout
  have hrank : (w.withGraph g).graph.rankOf = g.rankOf := Graph.rankOf_of_withoutData_eq hwithout
  have hid : (w.withGraph g).graph.id? = g.id? := Graph.id?_of_withoutData_eq hwithout
  have hreal : (w.withGraph g).graph.realKeys = g.realKeys := (numberJobs_spec g).2.1
  have hjobs : ∀ key entry, entries[key]? = some entry → ∃ job, (w.withGraph g).job? key = some job ∧
      job.name = entry.name ∧ g.id? key = some job.name ∧ job.index = g.rankOf key := by
    intro key entry hentry
    obtain ⟨job, hjob, hname, hnode, hindex⟩ := hunnumbered key entry hentry
    exact ⟨_, index_numberJobs hplaced hjob hindex, hname, hnode, rfl⟩
  have hperm : (orderedKeys g).Perm g.realKeys :=
    perm_orderedKeys hplaced (Graph.Invariant.holds Graph.invariant_ranking_subset_realKeys hreachable)
      (hrange ▸ List.nodup_range)
  refine ⟨hwithout, hreal.trans hrange, ?_, ?_, ?_, ?_, ?_⟩
  · rw [hreal]
    exact hperm
  · rw [hranking, hreal, hrank]
    rfl
  · rw [hranking, hrank]
    exact hplaced.rankOf_iff
  · refine map_jobs_eq fun key hkey => ?_
    have hmem := hperm.mem_iff.1 hkey
    rw [hrange, List.mem_range] at hmem
    obtain ⟨job, hjob, -⟩ := hjobs key _ (List.getElem?_eq_getElem hmem)
    rw [hjob]
    rfl
  · rw [hid, hrank]
    exact hjobs

/-- A load arranges the jobs of its list. -/
theorem arranged_load (h : (w.load entries).answer = .ok report) :
    Arranged (w.load entries).state entries
      ((jobGraph (JobEntry.linkedJobs entries)).layOut w.options).1 := by
  have hloaded := loaded_of_load h
  have hnamed : Graph.NamedBy Job.name (jobGraph (JobEntry.linkedJobs entries)) :=
    Graph.namedBy_ofRecords _ _ _
  have hreachable : Graph.Reachable ((jobGraph (JobEntry.linkedJobs entries)).layOut w.options).1 :=
    (Graph.Reachable.ofRecords Job.name Job.parentNames (JobEntry.linkedJobs entries)).perform
      (.layOut w.options)
  have hnames := hnamed.layOut (Graph.consistent_ofRecords _ _ _) w.options
  have hdata : ((jobGraph (JobEntry.linkedJobs entries)).layOut w.options).1.data? =
      (jobGraph (JobEntry.linkedJobs entries)).data? :=
    (Graph.redrawn_layOut (Graph.consistent_ofRecords _ _ _) w.options).2.data?_eq
  rw [load_eq_ok h] at hloaded ⊢
  refine arranged_withGraph hreachable ((numberJobs_spec _).2.1.symm.trans hloaded.realKeys_eq) ?_
  -- the list itself gives a job no index
  intro key entry hentry
  have hjob : ((jobGraph (JobEntry.linkedJobs entries)).layOut w.options).1.data? key =
      some (JobEntry.linkedJob entries entry key) := by
    rw [hdata, (lists_jobGraph entries).1.data?_eq, JobEntry.getElem?_linkedJobs, hentry]
    rfl
  exact ⟨_, hjob, rfl, hnames key _ hjob, rfl⟩

/-! ## Operations -/

/-- The name of a job and where it stands. -/
def seat (job : Job) : String × Option Nat :=
  (job.name, job.index)

/-- Operations that keep the seats of all jobs keep the jobs arranged. -/
theorem Arranged.edited {laidOut : Graph Job} (h : Arranged w entries laidOut)
    (hedited : Edited (fun _ => True) seat w w') : Arranged w' entries laidOut := by
  have hranking := Graph.ranking_of_withoutData_eq hedited.withoutData_eq
  have hrank := Graph.rankOf_of_withoutData_eq hedited.withoutData_eq
  have hid := Graph.id?_of_withoutData_eq hedited.withoutData_eq
  have hreal : w'.graph.realKeys = w.graph.realKeys :=
    show w'.graph.withoutData.realKeys = w.graph.withoutData.realKeys by rw [hedited.withoutData_eq]
  have hseat : ∀ key job, w.job? key = some job →
      ∃ job', w'.job? key = some job' ∧ job'.name = job.name ∧ job'.index = job.index := by
    intro key job hjob
    have hpart := hedited.part_eq key
    rw [hjob, Option.map_some, Option.map_eq_some_iff] at hpart
    obtain ⟨job', hjob', hsame⟩ := hpart
    exact ⟨job', hjob', (Prod.mk.inj hsame).1, (Prod.mk.inj hsame).2⟩
  have hjobs : ∀ key entry, entries[key]? = some entry → ∃ job, w'.job? key = some job ∧
      job.name = entry.name ∧ w'.graph.id? key = some job.name ∧
        job.index = w'.graph.rankOf key := by
    intro key entry hentry
    obtain ⟨job, hjob, hname, hnode, hindex⟩ := h.job?_eq key entry hentry
    obtain ⟨job', hjob', hname', hindex'⟩ := hseat key job hjob
    refine ⟨job', hjob', hname'.trans hname, ?_, ?_⟩
    · rw [hid, hnode, hname']
    · rw [hrank, hindex', hindex]
  refine ⟨hedited.withoutData_eq.trans h.withoutData_eq, hreal.trans h.realKeys_eq, ?_, ?_, ?_, ?_,
    hjobs⟩
  · rw [hedited.jobKeys_eq, hreal]
    exact h.perm_jobKeys
  · rw [hedited.jobKeys_eq, hranking, hreal, hrank]
    exact h.jobKeys_eq
  · rw [hranking, hrank]
    exact h.rankOf_iff
  · refine map_jobs_eq fun key hkey => ?_
    rw [hedited.jobKeys_eq, h.perm_jobKeys.mem_iff, h.realKeys_eq, List.mem_range] at hkey
    obtain ⟨job, hjob, -⟩ := hjobs key _ (List.getElem?_eq_getElem hkey)
    rw [hjob]
    rfl

/-- Apart from the seats, nothing is asked of the jobs. -/
theorem Edited.of_seat_eq {Part : Type} {touched : NodeKey → Prop} {part : Job → Part}
    (h : Edited touched part w w') (hseat : ∀ key, (w'.job? key).map seat = (w.job? key).map seat) :
    Edited (fun _ => True) seat w w' :=
  ⟨h.withoutData_eq, h.jobKeys_eq, fun _ hkey => absurd trivial hkey, hseat⟩

/-- When the part that jobs keep tells their seats, they keep these. -/
theorem Edited.seat_of_part {Part : Type} {touched : NodeKey → Prop} {part : Job → Part}
    (h : Edited touched part w w') (read : Part → String × Option Nat)
    (hread : ∀ job, read (part job) = seat job) : Edited (fun _ => True) seat w w' := by
  refine h.of_seat_eq fun key => ?_
  have hpart := congrArg (Option.map read) (h.part_eq key)
  rw [Option.map_map, Option.map_map] at hpart
  rwa [show seat = read ∘ part from (funext hread).symm]

/-- No operation on single jobs renames one. -/
theorem Relabelled.name_eq (h : Relabelled w w') (key : NodeKey) :
    (w'.job? key).map Job.name = (w.job? key).map Job.name := by
  have hread : ∀ w : Workflow, (w.job? key).map Job.name = (w.label? key).map Prod.fst := by
    intro w
    rw [label?, Option.map_map]
    rfl
  rw [hread, hread]
  cases h with
  | same hlabel _ _ => rw [hlabel]
  | @entered changed name id old hold hlabel _ _ =>
      rw [hlabel]
      by_cases hkey : key = changed
      · rw [hkey, Function.update_self, hold]
        rfl
      · rw [Function.update_of_ne hkey]

/-- What leaves names and standings alone leaves the seats alone. -/
theorem Edited.seat_of_relabelled {touched : NodeKey → Prop} (h : Edited touched Job.standing w w')
    (hrelabelled : Relabelled w w') : Edited (fun _ => True) seat w w' := by
  refine h.of_seat_eq fun key => ?_
  have hname := hrelabelled.name_eq key
  have hstanding := h.part_eq key
  cases hjob : w.job? key with
  | none =>
      rw [hjob, Option.map_none, Option.map_eq_none_iff] at hname
      rw [hname]
  | some job =>
      rw [hjob, Option.map_some, Option.map_eq_some_iff] at hname
      obtain ⟨job', hjob', hsame⟩ := hname
      rw [hjob, hjob', Option.map_some, Option.map_some, Option.some.injEq] at hstanding
      rw [hjob', Option.map_some, Option.map_some, seat, seat, hsame, (Prod.mk.inj hstanding).1]

/-- One event of a batch. -/
theorem edited_applyEvents_take (events : List Event) (limit : Option Nat) (count : Nat)
    {event : Event} (hevent : events[count]? = some event) :
    Edited (fun key => (w.applyEvents (events.take count) limit).state.subject? event = some key)
      Job.standing (w.applyEvents (events.take count) limit).state
      (w.applyEvents (events.take (count + 1)) limit).state := by
  rw [List.take_add_one, hevent, Option.toList_some, applyEvents, applyEvents, takeEvents_concat]
  exact edited_takeEvent _ limit _ event

/-- An operation that loads nothing keeps the jobs arranged. -/
theorem Arranged.perform {laidOut : Graph Job} (h : Arranged w entries laidOut) (hindexed : Indexed w)
    {operation : Operation} (hoperation : ∀ others, operation ≠ .load others) :
    Arranged (w.perform operation) entries laidOut := by
  cases operation with
  | load others => exact absurd rfl (hoperation others)
  | applyEvents events limit =>
      have hprefix : ∀ count,
          Arranged (w.applyEvents (events.take count) limit).state entries laidOut := by
        intro count
        induction count with
        | zero => exact h
        | succ count ih =>
            cases hevent : events[count]? with
            | none => rwa [List.take_add_one, hevent, Option.toList_none, List.append_nil]
            | some event =>
                have hnames := (hindexed.applyEvents_take events limit count).names
                exact ih.edited ((edited_applyEvents_take events limit count hevent).seat_of_relabelled
                  (relabelled_applyEvents_take events limit count hnames))
      have hall := hprefix events.length
      rwa [List.take_length] at hall
  | applyEvent event =>
      exact h.edited ((w.edited_applyEvent event).seat_of_relabelled
        (relabelled_applyEvent hindexed.names event))
  | updateJob update =>
      exact h.edited ((w.edited_updateJob update).seat_of_relabelled
        (relabelled_updateJob hindexed.names update))
  | setProgress progress => exact h.edited ((Edited.refl w).congr rfl rfl)
  | select ref => exact h.edited ((w.edited_select ref).seat_of_part seat fun _ => rfl)
  | hover ref => exact h.edited ((w.edited_hover ref).seat_of_part seat fun _ => rfl)

theorem Arranged.run {laidOut : Graph Job} (h : Arranged w entries laidOut) (hindexed : Indexed w)
    {operations : List Operation} (hoperations : ∀ others, .load others ∉ operations) :
    Arranged (w.run operations) entries laidOut := by
  induction operations generalizing w with
  | nil => exact h
  | cons operation rest ih =>
      refine ih (h.perform hindexed ?_) (hindexed.perform operation) fun others hmem =>
        hoperations others (List.mem_cons_of_mem operation hmem)
      rintro others rfl
      exact hoperations others List.mem_cons_self

/-! ## Single steps -/

/-- Whatever is done next changes one job at most, and a view changes its marks only. -/
structure Confined (w : Workflow) : Prop where
  /-- An update changes the job that it names, but neither its rank nor its marks. -/
  updateJob (update : Job) :
    Edited (fun key => w.named? update = some key) Job.standing w (w.updateJob update).state
  /-- An event changes the job that it is about, but neither its rank nor its marks. -/
  applyEvent (event : Event) :
    Edited (fun key => w.subject? event = some key) Job.standing w (w.applyEvent event).state
  /-- So does each event of a batch, in the state that the events before it leave. -/
  applyEvents (events : List Event) (limit : Option Nat) (count : Nat) (event : Event) :
    events[count]? = some event →
      Edited (fun key => (w.applyEvents (events.take count) limit).state.subject? event = some key)
        Job.standing (w.applyEvents (events.take count) limit).state
        (w.applyEvents (events.take (count + 1)) limit).state
  /-- Progress of the workflow changes no job. -/
  setProgress (progress : Nat) :
    Edited (fun _ => False) (fun job => job) w (w.setProgress progress).state
  /-- A selection changes one mark, at the job that was selected and at the one that is. -/
  select (ref : Option JobRef) :
    Edited (fun key => w.selected = some key ∨ (w.select ref).state.selected = some key)
      Job.unselected w (w.select ref).state
  /-- The pointer changes the other mark, at the job that it left and at the one that it enters. -/
  hover (ref : Option JobRef) :
    Edited (fun key => w.hovered = some key ∨ (w.hover ref).state.hovered = some key)
      Job.unhovered w (w.hover ref).state

theorem confined (w : Workflow) : Confined w where
  updateJob := w.edited_updateJob
  applyEvent := w.edited_applyEvent
  applyEvents events limit count _ hevent := edited_applyEvents_take events limit count hevent
  setProgress _ := (Edited.refl w).congr rfl rfl
  select := w.edited_select
  hover := w.edited_hover

/-- **Places.**  Whatever happens to a workflow after a load, its jobs stand where the layout of the
list put them, under the names of their nodes, and every further step changes one job at most. -/
theorem arranged_run (hload : (w.load entries).answer = .ok report) {later : List Operation}
    (hlater : ∀ others, .load others ∉ later) :
    Arranged ((w.load entries).state.run later) entries
        ((jobGraph (JobEntry.linkedJobs entries)).layOut w.options).1 ∧
      Confined ((w.load entries).state.run later) := by
  have hconsistent : Graph.Consistent ((jobGraph (JobEntry.linkedJobs entries)).layOut w.options).1 :=
    (Graph.consistent_ofRecords _ _ _).layOut w.options
  have hindexed : Indexed (w.load entries).state := by
    rw [load_eq_ok hload]
    exact (w.indexed_withGraph hconsistent.toLinked).1
  exact ⟨(arranged_load hload).run hindexed hlater, confined _⟩

/-- Two jobs of one name, one that depends on them, and two on a cycle, which get no rank. -/
def knotted : List JobEntry :=
  [⟨"b", .blank, ["d"]⟩, ⟨"a", { Job.blank with id := some "1" }, ["b", "c"]⟩, ⟨"c", .blank, []⟩,
    ⟨"a", { Job.blank with id := some "2" }, []⟩, ⟨"d", .blank, ["b"]⟩]

/-- Updates that carry an index, or an id and no name, and what a view does. -/
def bustle : List Operation :=
  [.updateJob { Job.blank with name := "a", id := some "3", index := some 7 },
    .updateJob { Job.blank with id := some "2", status := .running }, .setProgress 40,
    .select (some ⟨some "c", none⟩), .hover (some ⟨some "b", none⟩)]

theorem arranged_knotted :
    (∃ report, ((new none .default).load knotted).answer = .ok report) ∧
      (∀ others, .load others ∉ bustle) ∧
      Arranged (((new none .default).load knotted).state.run bustle) knotted
        ((jobGraph (JobEntry.linkedJobs knotted)).layOut .default).1 ∧
      Confined (((new none .default).load knotted).state.run bustle) := by
  have hlater : ∀ others, .load others ∉ bustle := by simp [bustle]
  obtain ⟨report, hload⟩ : ∃ report, ((new none .default).load knotted).answer = .ok report := by
    refine ⟨⟨2, 0, ["b", "d"]⟩, ?_⟩
    decide +kernel
  exact ⟨⟨report, hload⟩, hlater, arranged_run hload hlater⟩

end Workflow

end JobGraph
