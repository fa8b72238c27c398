import JobGraph.Proofs.Workflow.Loading

/-!
# Names in a job list

What the names in a job list mean once it is loaded.

* **Distinct names.**  The parents of a job are those that its entry carries already and those that
  list it as a successor, `LinkedBy`.  Only when no entry carries parents are they the ones that the
  successors say.
* **Repeated names.**  The first entry of a name is found as a job, and gets its events; the last one
  is found as a node, and gets the edges.
-/

namespace JobGraph.Workflow

variable {w : Workflow} {entries : List JobEntry} {report : LayeringReport}

/-! ## Distinct names -/

/-- The jobs of a list, linked by their successors and by the parents that each carries itself. -/
structure LinkedBy (w : Workflow) (entries : List JobEntry) (carried : JobEntry → List String) :
    Prop where
  realKeys_eq : w.graph.realKeys = List.range entries.length
  /-- The parents carried come first, then each entry once for each time it lists the name. -/
  parentNames_eq : ∀ place entry, entries[place]? = some entry → ∃ job, w.job? place = some job ∧
    job.name = entry.name ∧
    job.parentNames = carried entry ++ entries.flatMap fun other =>
      List.replicate (other.successorNames.count entry.name) other.name
  /-- There is an edge for each of these names, over waypoints or not. -/
  count_straightEdges : ∀ i j dependent parent, entries[i]? = some dependent →
    entries[j]? = some parent → w.graph.straightEdges.count ⟨i, j⟩ =
      (carried dependent).count parent.name + parent.successorNames.count dependent.name
  /-- And there are no other edges. -/
  ends_lt : ∀ edge ∈ w.graph.straightEdges,
    edge.dependent < entries.length ∧ edge.parent < entries.length

theorem LinkedBy.congr {carried carried' : JobEntry → List String} (h : LinkedBy w entries carried)
    (hsame : ∀ entry ∈ entries, carried' entry = carried entry) : LinkedBy w entries carried' where
  realKeys_eq := h.realKeys_eq
  parentNames_eq place entry hentry := by
    rw [hsame entry (List.mem_of_getElem? hentry)]
    exact h.parentNames_eq place entry hentry
  count_straightEdges i j dependent parent hdependent hparent := by
    rw [hsame dependent (List.mem_of_getElem? hdependent)]
    exact h.count_straightEdges i j dependent parent hdependent hparent
  ends_lt := h.ends_lt

/-- Among distinct names every entry is the first of its own. -/
theorem parentNames_linkedJob (hnames : (entries.map JobEntry.name).Nodup) {place : Nat}
    {entry : JobEntry} (hentry : entries[place]? = some entry) :
    (JobEntry.linkedJob entries entry place).parentNames =
      entry.job.parentNames ++ JobEntry.dependencies entries entry.name := by
  have hname : (entries.map JobEntry.name)[place]? = some entry.name := by
    rw [List.getElem?_map, hentry]
    rfl
  have hfirst : JobEntry.placeOf? entries entry.name = some place := by
    refine JobEntry.placeOf?_eq_some_iff.2 ⟨hname, fun earlier hearlier => ?_⟩
    exact ((LastAt.iff_of_nodup hnames).2 hearlier).2 place hname
  show _ ++ (if _ then _ else _) = _
  rw [if_pos hfirst]
  rfl

/-- **Parents.**  When the names in a list are distinct, a job is linked to those that list it as a
successor, and to the parents that its entry carries; so to the former only, when no entry carries
any. -/
theorem linkedBy_load (hnames : (entries.map JobEntry.name).Nodup)
    (hload : (w.load entries).answer = .ok report) :
    LinkedBy (w.load entries).state entries (fun entry => entry.job.parentNames) ∧
      ((∀ entry ∈ entries, entry.job.parentNames = []) →
        LinkedBy (w.load entries).state entries fun _ => []) := by
  have hloaded := loaded_of_load hload
  have hlinked : LinkedBy (w.load entries).state entries fun entry => entry.job.parentNames := by
    refine ⟨hloaded.realKeys_eq, fun place entry hentry => ?_,
      fun i j dependent parent hdependent hparent => ?_, fun edge hedge => ?_⟩
    · obtain ⟨rank, hjob⟩ := hloaded.job?_eq place entry hentry
      refine ⟨_, hjob, rfl, ?_⟩
      rw [← JobEntry.dependencies_eq]
      exact parentNames_linkedJob hnames hentry
    · have hlast : LastAt (entries.map JobEntry.name) parent.name j := by
        rw [LastAt.iff_of_nodup hnames, List.getElem?_map, hparent]
        rfl
      rw [hloaded.count_straightEdges i dependent hdependent _ _ hlast,
        parentNames_linkedJob hnames hdependent, List.count_append,
        JobEntry.count_dependencies hnames (List.mem_of_getElem? hparent)]
    · obtain ⟨hlt, name, hlast⟩ := hloaded.of_mem_straightEdges edge hedge
      have hlt' := hlast.lt_length
      rw [List.length_map] at hlt'
      exact ⟨hlt, hlt'⟩
  exact ⟨hlinked, fun hnone => hlinked.congr fun entry hentry => (hnone entry hentry).symm⟩

/-- A job that another one depends on twice. -/
def doubled : List JobEntry :=
  [⟨"a", .blank, ["b", "b"]⟩, ⟨"b", .blank, []⟩]

theorem linkedBy_doubled :
    (doubled.map JobEntry.name).Nodup ∧ (∀ entry ∈ doubled, entry.job.parentNames = []) ∧
      LinkedBy ((new none .default).load doubled).state doubled fun _ => [] := by
  have hnames : (doubled.map JobEntry.name).Nodup := by decide
  have hnone : ∀ entry ∈ doubled, entry.job.parentNames = [] := by decide
  obtain ⟨report, hload⟩ : ∃ report, ((new none .default).load doubled).answer = .ok report := by
    refine ⟨⟨2, 0, []⟩, ?_⟩
    decide +kernel
  exact ⟨hnames, hnone, (linkedBy_load hnames hload).2 hnone⟩

/-- A job that comes with a parent, which does not list it as a successor. -/
def carrying : List JobEntry :=
  [⟨"a", .blank, []⟩, ⟨"b", { Job.blank with parentNames := ["a"] }, []⟩]

/-- Parents that an entry carries are kept, and edges are drawn to them. -/
theorem not_linkedBy_carrying :
    (carrying.map JobEntry.name).Nodup ∧
      ((new none .default).load carrying).answer = .ok ⟨2, 0, []⟩ ∧
      ((new none .default).load carrying).state.graph.straightEdges = [⟨1, 0⟩] ∧
      ¬ LinkedBy ((new none .default).load carrying).state carrying fun _ => [] := by
  have hedges : ((new none .default).load carrying).state.graph.straightEdges = [⟨1, 0⟩] := by
    decide +kernel
  refine ⟨by decide, by decide +kernel, hedges, fun hlinked => ?_⟩
  have hcount := hlinked.count_straightEdges 1 0 _ _ rfl rfl
  rw [hedges] at hcount
  exact absurd hcount (by decide)

/-! ## Repeated names -/

/-- Where a name leads that has these two places in a list. -/
structure Lookups (w : Workflow) (entries : List JobEntry) (name : String) (first last : NodeKey) :
    Prop where
  firstAt : FirstAt (entries.map JobEntry.name) name first
  lastAt : LastAt (entries.map JobEntry.name) name last
  /-- Updates and events with the name are for the first node, whatever id they have. -/
  findKey_eq : ∀ id, w.findKey ⟨some name, id⟩ = .ok first
  find_eq : ∃ job, w.find ⟨some name, none⟩ = .ok job ∧ w.job? first = some job ∧ job.name = name
  find?_eq : w.graph.find? name = some last
  /-- A job has an edge to the last node for each time that the name is among its parents. -/
  count_straightEdges : ∀ place entry, entries[place]? = some entry → ∃ job,
    w.job? place = some job ∧ w.graph.straightEdges.count ⟨place, last⟩ = job.parentNames.count name
  /-- And there are no edges to other nodes of the name. -/
  parent_eq : ∀ edge ∈ w.graph.straightEdges,
    (entries.map JobEntry.name)[edge.parent]? = some name → edge.parent = last
  /-- Both nodes are one only if no other entry has the name. -/
  first_eq_last_iff : first = last ↔ (entries.map JobEntry.name).count name = 1

/-- **Names.**  Of several entries of one name, the first is found as a job and the last as a node of
the graph. -/
theorem lookups_load (hload : (w.load entries).answer = .ok report) {name : String}
    (hname : name ∈ entries.map JobEntry.name) :
    ∃ first last, Lookups (w.load entries).state entries name first last := by
  have hloaded := loaded_of_load hload
  generalize (w.load entries).state = loaded at hloaded ⊢
  obtain ⟨last, hlast⟩ := LastAt.exists_of_mem hname
  obtain ⟨first, hfirst⟩ := FirstAt.exists_of_mem hname
  have hkey : ∀ id, loaded.findKey ⟨some name, id⟩ = .ok first :=
    fun _ => lookUp_eq_ok.2 ((hloaded.byName_iff name first).2 hfirst)
  obtain ⟨entry, hentry, hentryName⟩ :
      ∃ entry, entries[first]? = some entry ∧ entry.name = name := by
    have h := hfirst.1
    rwa [List.getElem?_map, Option.map_eq_some_iff] at h
  obtain ⟨rank, hjob⟩ := hloaded.job?_eq first entry hentry
  refine ⟨first, last, hfirst, hlast, hkey, ⟨_, ?_, hjob, hentryName⟩,
    hloaded.find?_eq name last hlast, fun place entry hentry => ?_, fun edge hedge hparent => ?_,
    hfirst.eq_iff_count_eq_one hlast⟩
  · rw [find, hkey]
    simp only [bind, Except.bind, hjob]
  · obtain ⟨rank, hjob⟩ := hloaded.job?_eq place entry hentry
    exact ⟨_, hjob, hloaded.count_straightEdges place entry hentry name last hlast⟩
  · obtain ⟨-, other, hother⟩ := hloaded.of_mem_straightEdges edge hedge
    obtain rfl : other = name := Option.some.inj (hother.1.symm.trans hparent)
    exact hother.unique hlast

/-- Two jobs of one name, and one that depends on the name. -/
def namesakes : List JobEntry :=
  [⟨"a", { Job.blank with id := some "1" }, ["b"]⟩, ⟨"a", { Job.blank with id := some "2" }, []⟩,
    ⟨"b", .blank, []⟩]

theorem lookups_namesakes :
    "a" ∈ namesakes.map JobEntry.name ∧
      ∃ first last, Lookups ((new none .default).load namesakes).state namesakes "a" first last := by
  have hname : "a" ∈ namesakes.map JobEntry.name := by decide
  obtain ⟨report, hload⟩ : ∃ report, ((new none .default).load namesakes).answer = .ok report := by
    refine ⟨⟨2, 0, []⟩, ?_⟩
    decide +kernel
  exact ⟨hname, lookups_load hload hname⟩

/-- The job that is found by a name need not be the one of the node that is found by it. -/
theorem not_same_node_namesakes :
    ∃ job other, ((new none .default).load namesakes).state.find ⟨some "a", none⟩ = .ok job ∧
      ((new none .default).load namesakes).state.graph.find? "a" = some 1 ∧
      ((new none .default).load namesakes).state.job? 1 = some other ∧
      job.id = some "1" ∧ other.id = some "2" ∧ job ≠ other := by
  refine ⟨{ Job.blank with name := "a", id := some "1", childNames := ["b"], index := some 0 },
    { Job.blank with name := "a", id := some "2", index := some 1 }, ?_, ?_, ?_, rfl, rfl, ?_⟩
  · decide +kernel
  · decide +kernel
  · decide +kernel
  · decide

end JobGraph.Workflow
