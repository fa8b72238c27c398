import JobGraph.Proofs.Graph.Redrawing
import JobGraph.Proofs.Workflow.Lookup

/-!
# What a job list is loaded as

The entries of a job list become the real nodes of the graph, in their order, and waypoints never
get in their way: `Loaded`.  The names in the list decide three things.

* **Jobs by name.**  A workflow finds the first job of a name.
* **Nodes by id.**  The graph finds the last node of a name, and edges lead there.
* **Parents.**  A job has the parents that it came with and those that list it as a successor, and
  an edge to a node for each time that the name of that node is among them.

So the two ways to look a name up lead to one node only where the name occurs once.
-/

namespace JobGraph

/-! ## First places -/

/-- The first place of a name in a list. -/
def FirstAt (names : List String) (name : String) (place : Nat) : Prop :=
  names[place]? = some name ∧ ∀ earlier, names[earlier]? = some name → place ≤ earlier

/-- Every name in a list has a first place. -/
theorem FirstAt.exists_of_mem {names : List String} {name : String} (h : name ∈ names) :
    ∃ place, FirstAt names name place := by
  refine ⟨names.idxOf name, List.getElem?_idxOf h, fun earlier hearlier => ?_⟩
  by_contra hlt
  have hbefore := List.not_of_lt_findIdx (Nat.not_le.1 hlt)
  rw [(List.getElem?_eq_some_iff.1 hearlier).2] at hbefore
  simp at hbefore

/-- The first place is the last one only where a name occurs once. -/
theorem FirstAt.eq_iff_count_eq_one {names : List String} {name : String} {first last : Nat}
    (h : FirstAt names name first) (h' : LastAt names name last) :
    first = last ↔ names.count name = 1 := by
  have hle : first ≤ last := h.2 _ h'.1
  have hpos : 0 < names.count name := List.count_pos_iff.2 h'.mem
  have htwice : 2 ≤ names.count name ↔ first < last := by
    rw [← List.duplicate_iff_two_le_count, List.duplicate_iff_exists_distinct_get]
    obtain ⟨hfirst, hfirstName⟩ := List.getElem?_eq_some_iff.1 h.1
    obtain ⟨hlast, hlastName⟩ := List.getElem?_eq_some_iff.1 h'.1
    constructor
    · rintro ⟨i, j, hlt, hi, hj⟩
      have hi' := h.2 i (List.getElem?_eq_some_iff.2 ⟨i.2, hi.symm⟩)
      have hj' := h'.2 j (List.getElem?_eq_some_iff.2 ⟨j.2, hj.symm⟩)
      exact hi'.trans_lt (lt_of_lt_of_le hlt hj')
    · intro hlt
      exact ⟨⟨first, hfirst⟩, ⟨last, hlast⟩, hlt, hfirstName.symm, hlastName.symm⟩
  omega

namespace IdIndex

variable {label? : NodeKey → Option String} {keys : List NodeKey} {start : IdIndex}

/-- Of several nodes with one label, an index has the first, unless the label was taken. -/
theorem get?_ofLabels (label : String) :
    (ofLabels label? keys start).get? label =
      (start.get? label).or (keys.find? fun key => label? key = some label) := by
  induction keys generalizing start with
  | nil => simp [ofLabels]
  | cons first rest ih =>
      rw [ofLabels, List.foldl_cons]
      refine ih.trans ?_
      cases hfirst : label? first with
      | none => simp [hfirst]
      | some other =>
          dsimp only
          rw [get?_insertNew, List.find?_cons, hfirst]
          by_cases hlabel : label = other
          · subst hlabel
            cases start.get? label <;> simp
          · simp [hlabel, Ne.symm hlabel]

end IdIndex

/-! ## Entries -/

namespace JobEntry

variable {entries : List JobEntry} {entry : JobEntry} {place : Nat}

theorem getElem?_linkedJobs (entries : List JobEntry) (place : Nat) :
    (linkedJobs entries)[place]? =
      entries[place]?.map fun entry => linkedJob entries entry place := by
  rw [linkedJobs, List.getElem?_map, List.getElem?_zipIdx, Option.map_map, Nat.zero_add]
  rfl

theorem map_name_linkedJobs (entries : List JobEntry) :
    (linkedJobs entries).map Job.name = entries.map JobEntry.name := by
  refine List.ext_getElem? fun place => ?_
  rw [List.getElem?_map, getElem?_linkedJobs, Option.map_map, List.getElem?_map]
  rfl

theorem length_linkedJobs (entries : List JobEntry) :
    (linkedJobs entries).length = entries.length := by
  rw [linkedJobs, List.length_map, List.length_zipIdx]

theorem placeOf?_eq_some_iff {name : String} :
    placeOf? entries name = some place ↔ FirstAt (entries.map JobEntry.name) name place := by
  rw [placeOf?, List.findIdx?_eq_some_iff_getElem, FirstAt]
  constructor
  · rintro ⟨hlt, hname, hfirst⟩
    refine ⟨by simp [hlt, beq_iff_eq.1 hname], fun earlier hearlier => ?_⟩
    by_contra hbefore
    refine hfirst earlier (Nat.not_le.1 hbefore) ?_
    obtain ⟨_, heq⟩ := List.getElem?_eq_some_iff.1 hearlier
    rw [List.getElem_map] at heq
    exact beq_iff_eq.2 heq
  · rintro ⟨hname, hfirst⟩
    obtain ⟨hlt, heq⟩ := List.getElem?_eq_some_iff.1 hname
    rw [List.length_map] at hlt
    rw [List.getElem_map] at heq
    refine ⟨hlt, beq_iff_eq.2 heq, fun earlier hearlier hother => ?_⟩
    refine absurd (hfirst earlier ?_) (Nat.not_le.2 hearlier)
    simp [hearlier.trans hlt, beq_iff_eq.1 hother]

/-- The names of those that list a name as a successor, once for each time. -/
theorem dependencies_eq (entries : List JobEntry) (name : String) :
    dependencies entries name =
      entries.flatMap fun entry => List.replicate (entry.successorNames.count name) entry.name := by
  refine List.flatMap_congr fun entry _ => ?_
  rw [List.map_const', List.count_eq_length_filter]

/-- Among distinct names, the name of an entry depends once for each time that it lists the other
one as a successor. -/
theorem count_dependencies (hnames : (entries.map JobEntry.name).Nodup) (hentry : entry ∈ entries)
    (name : String) :
    (dependencies entries name).count entry.name = entry.successorNames.count name := by
  rw [dependencies_eq]
  induction entries with
  | nil => exact absurd hentry List.not_mem_nil
  | cons first rest ih =>
      rw [List.map_cons, List.nodup_cons] at hnames
      rw [List.flatMap_cons, List.count_append, List.count_replicate]
      rcases List.mem_cons.1 hentry with rfl | hrest
      · -- no other entry has this name
        rw [if_pos (beq_self_eq_true _), Nat.add_eq_left, List.count_eq_zero]
        intro hmem
        obtain ⟨other, hother, hreplicate⟩ := List.mem_flatMap.1 hmem
        rw [(List.mem_replicate.1 hreplicate).2] at hnames
        exact hnames.1 (List.mem_map_of_mem hother)
      · have hne : first.name ≠ entry.name :=
          fun heq => hnames.1 (heq ▸ List.mem_map_of_mem hrest)
        rw [if_neg (by simpa using hne), Nat.zero_add]
        exact ih hnames.2 hrest

end JobEntry

/-! ## Loaded workflows -/

namespace Workflow

variable {w : Workflow} {entries : List JobEntry}

/-- The workflow has the jobs of a list, finds the first of a name, and draws edges to the last. -/
structure Loaded (w : Workflow) (entries : List JobEntry) : Prop where
  /-- The real nodes are the entries, by their places. -/
  realKeys_eq : w.graph.realKeys = List.range entries.length
  /-- A job is what was made of its entry, with a rank or none. -/
  job?_eq : ∀ place entry, entries[place]? = some entry →
    ∃ rank, w.job? place = some { JobEntry.linkedJob entries entry place with index := rank }
  byName_iff : ∀ name key,
    w.byName.get? name = some key ↔ FirstAt (entries.map JobEntry.name) name key
  find?_eq : ∀ name key, LastAt (entries.map JobEntry.name) name key →
    w.graph.find? name = some key
  /-- An edge leads to a node for each time that its name is among the parents of a job. -/
  count_straightEdges : ∀ place entry, entries[place]? = some entry → ∀ name key,
    LastAt (entries.map JobEntry.name) name key →
      w.graph.straightEdges.count ⟨place, key⟩ =
        (JobEntry.linkedJob entries entry place).parentNames.count name
  /-- Edges lead from entries to entries that are the last of their name. -/
  of_mem_straightEdges : ∀ edge ∈ w.graph.straightEdges,
    edge.dependent < entries.length ∧
      ∃ name, LastAt (entries.map JobEntry.name) name edge.parent

/-- Jobs that get their ranks are the same but for these. -/
theorem numberJobs_spec (g : Graph Job) :
    (numberJobs g).straightEdges = g.straightEdges ∧ (numberJobs g).realKeys = g.realKeys ∧
      (numberJobs g).find? = g.find? ∧
      ∀ key job, g.data? key = some job →
        ∃ rank, (numberJobs g).data? key = some { job with index := rank } := by
  refine List.foldlRecOn
    (motive := fun next : Graph Job =>
      next.straightEdges = g.straightEdges ∧ next.realKeys = g.realKeys ∧ next.find? = g.find? ∧
        ∀ key job, g.data? key = some job →
          ∃ rank, next.data? key = some { job with index := rank }) _ _
    ⟨rfl, rfl, rfl, fun key job hjob => ⟨job.index, hjob⟩⟩ ?_
  rintro next ⟨hedges, hreal, hfind, hdata⟩ numbered -
  obtain ⟨hedges', hreal', hfind'⟩ := next.straightEdges_modifyData numbered.1
    fun job => { job with index := some numbered.2 }
  refine ⟨hedges'.trans hedges, hreal'.trans hreal, hfind'.trans hfind, fun key job hjob => ?_⟩
  obtain ⟨rank, hrank⟩ := hdata key job hjob
  rw [Graph.data?_modifyData, hrank]
  split
  · exact ⟨_, rfl⟩
  · exact ⟨rank, rfl⟩

theorem load_eq_ok {report : LayeringReport} (h : (w.load entries).answer = .ok report) :
    (w.load entries).state =
      w.withGraph ((jobGraph (JobEntry.linkedJobs entries)).layOut w.options).1 := by
  unfold load at h ⊢
  split at h
  · exact absurd h nofun
  · rename_i g report heq
    rw [heq]

/-- The graph of a job list before it is laid out. -/
theorem lists_jobGraph (entries : List JobEntry) :
    Graph.Lists (jobGraph (JobEntry.linkedJobs entries)) Job.name (JobEntry.linkedJobs entries) ∧
      ∀ place entry, entries[place]? = some entry →
        (jobGraph (JobEntry.linkedJobs entries)).parentsOf place =
          (JobEntry.linkedJob entries entry place).parentNames.filterMap
            (jobGraph (JobEntry.linkedJobs entries)).find? := by
  obtain ⟨hlists, hparents⟩ :=
    Graph.ofRecords_spec Job.name Job.parentNames (JobEntry.linkedJobs entries)
  refine ⟨hlists, fun place entry hentry => hparents place _ ?_⟩
  rw [JobEntry.getElem?_linkedJobs, hentry]
  rfl

theorem find?_jobGraph_iff (entries : List JobEntry) (name : String) (key : NodeKey) :
    (jobGraph (JobEntry.linkedJobs entries)).find? name = some key ↔
      LastAt (entries.map JobEntry.name) name key := by
  rw [(lists_jobGraph entries).1.find?_iff, JobEntry.map_name_linkedJobs]

/-- Edges lead to the last node of a name. -/
theorem count_edges_jobGraph {place : Nat} {entry : JobEntry} (hentry : entries[place]? = some entry)
    {name : String} {key : NodeKey} (hlast : LastAt (entries.map JobEntry.name) name key) :
    (jobGraph (JobEntry.linkedJobs entries)).edges.count ⟨place, key⟩ =
      (JobEntry.linkedJob entries entry place).parentNames.count name := by
  rw [Graph.count_edges, (lists_jobGraph entries).2 place entry hentry, List.count_filterMap,
    List.count_eq_countP]
  refine List.countP_congr fun other _ => ?_
  rw [beq_iff_eq, beq_iff_eq, find?_jobGraph_iff]
  constructor
  · intro hother
    have hsame := hother.1.symm.trans hlast.1
    exact Option.some.inj hsame
  · rintro rfl
    exact hlast

theorem ends_of_mem_edges_jobGraph {edge : Graph.Edge}
    (hedge : edge ∈ (jobGraph (JobEntry.linkedJobs entries)).edges) :
    edge.dependent < entries.length ∧
      ∃ name, LastAt (entries.map JobEntry.name) name edge.parent := by
  obtain ⟨hlists, hparents⟩ := lists_jobGraph entries
  have hparent := Graph.mem_edges_iff.1 hedge
  have hlt := Graph.lt_of_mem_parentsOf _ hparent
  rw [hlists.size_eq, JobEntry.length_linkedJobs] at hlt
  rw [hparents _ _ (List.getElem?_eq_getElem hlt)] at hparent
  obtain ⟨name, -, hname⟩ := List.mem_filterMap.1 hparent
  exact ⟨hlt, name, (find?_jobGraph_iff entries name _).1 hname⟩

/-- A workflow finds the first job of a name. -/
theorem get?_nameIndex_iff {g : Graph Job} (hreal : g.realKeys = List.range entries.length)
    (hdata : ∀ key, g.data? key = (JobEntry.linkedJobs entries)[key]?) (name : String)
    (key : NodeKey) :
    (nameIndex g).get? name = some key ↔ FirstAt (entries.map JobEntry.name) name key := by
  have hlabel : ∀ key, (g.data? key).map Job.name = (entries.map JobEntry.name)[key]? := by
    intro key
    rw [hdata, ← List.getElem?_map, JobEntry.map_name_linkedJobs]
  rw [nameIndex_eq, IdIndex.get?_ofLabels, IdIndex.get?_empty, Option.none_or, hreal,
    List.find?_range_eq_some, FirstAt]
  simp only [hlabel, decide_eq_true_eq, Bool.not_eq_true', decide_eq_false_iff_not, List.mem_range]
  constructor
  · rintro ⟨hname, -, hfirst⟩
    exact ⟨hname, fun earlier hearlier => Nat.not_lt.1 fun hlt => hfirst earlier hlt hearlier⟩
  · rintro ⟨hname, hfirst⟩
    have hlt := (List.getElem?_eq_some_iff.1 hname).1
    rw [List.length_map] at hlt
    exact ⟨hname, hlt, fun earlier hearlier hother => absurd (hfirst earlier hother) hearlier.not_ge⟩

/-- **Loading.**  A load that succeeds leaves the jobs of its list. -/
theorem loaded_of_load {report : LayeringReport} (h : (w.load entries).answer = .ok report) :
    Loaded (w.load entries).state entries := by
  obtain ⟨hlists, -⟩ := lists_jobGraph entries
  have hconsistent : Graph.Consistent (jobGraph (JobEntry.linkedJobs entries)) :=
    Graph.consistent_ofRecords _ _ _
  have hredrawn := (Graph.redrawn_layOut hconsistent w.options).2
  have hedges := hredrawn.straightEdges_perm
  rw [Graph.straightEdges_of_unrouted hconsistent.toLinked hlists.routed_eq] at hedges
  rw [load_eq_ok h]
  generalize ((jobGraph (JobEntry.linkedJobs entries)).layOut w.options).1 = g at hredrawn hedges ⊢
  obtain ⟨hnumbered, hreal, hfind, hjobs⟩ := numberJobs_spec g
  have hdata : ∀ key, g.data? key = (JobEntry.linkedJobs entries)[key]? := by
    intro key
    rw [hredrawn.data?_eq]
    exact hlists.data?_eq key
  have hkeys : g.realKeys = List.range entries.length := by
    rw [hredrawn.realKeys_eq, hlists.realKeys_eq, JobEntry.length_linkedJobs]
  have hstraight : (w.withGraph g).graph.straightEdges.Perm
      (jobGraph (JobEntry.linkedJobs entries)).edges := by
    rw [← hnumbered] at hedges
    exact hedges
  refine ⟨hreal.trans hkeys, fun place entry hentry => ?_, get?_nameIndex_iff hkeys hdata,
    fun name key hlast => ?_, fun place entry hentry name key hlast => ?_, fun edge hedge => ?_⟩
  · refine hjobs place _ ?_
    rw [hdata, JobEntry.getElem?_linkedJobs, hentry]
    rfl
  · have hbounded : Graph.IdsBounded (jobGraph (JobEntry.linkedJobs entries)) := by
      rw [Graph.IdsBounded, hlists.length_entries, hlists.size_eq]
    have hnamed := (find?_jobGraph_iff entries name key).2 hlast
    show (numberJobs g).find? name = some key
    rw [hfind, hredrawn.names.find?_eq hbounded name (by rw [hnamed]; rfl), hnamed]
  · rw [hstraight.count_eq]
    exact count_edges_jobGraph hentry hlast
  · exact ends_of_mem_edges_jobGraph (hstraight.mem_iff.1 hedge)

end Workflow

end JobGraph
