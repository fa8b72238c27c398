import JobGraph.Proofs.Workflow.Batches
import JobGraph.Workflow.Loading

/-!
# Redelivery of events

A server may deliver events again and again, each time from the beginning of the same list, and may
leave out what it knows to be applied.  As long as the ids in the list never decrease, the workflow
does not notice: it is always where an unlimited batch of some prefix of the list would have brought
it.

The reason is that a workflow which absorbed some events absorbs each of them again without effect.
Take the event that changed the workflow last.  Events before it have no newer id, so that they are
duplicates now, even those that were rejected when they came first.  Events after it had no effect
in this very state.
-/

namespace JobGraph.Workflow

variable {w current : Workflow} {events batch : List Event}

/-- The ids in a list never decrease; events without an id may stand anywhere. -/
def InOrder (events : List Event) : Prop :=
  events.Pairwise fun earlier later => ∀ i ∈ earlier.id, ∀ j ∈ later.id, i ≤ j

instance (events : List Event) : Decidable (InOrder events) :=
  inferInstanceAs (Decidable (events.Pairwise _))

/-- A batch is what is left of some events when some of those whose ids are not newer than the last
one are left out. -/
inductive Thinned (last : Int) : List Event → List Event → Prop
  | nil : Thinned last [] []
  | keep {events batch : List Event} (event : Event) (h : Thinned last events batch) :
      Thinned last (event :: events) (event :: batch)
  | leaveOut {events batch : List Event} {event : Event} {id : Int} (hid : event.id = some id)
      (hold : id ≤ last) (h : Thinned last events batch) : Thinned last (event :: events) batch

/-- The workflows that calls with prefixes of a list lead to.  A call may leave out what was applied
before it and may have any limit. -/
inductive Delivered (events : List Event) (w : Workflow) : Workflow → Prop
  | start : Delivered events w w
  | call {current : Workflow} {batch : List Event} (h : Delivered events w current) (count : Nat)
      (hbatch : Thinned current.lastEvent (events.take count) batch) (limit : Option Nat) :
      Delivered events w (current.applyEvents batch limit).state

/-! ## Leaving out -/

theorem Thinned.refl (last : Int) (events : List Event) : Thinned last events events := by
  induction events with
  | nil => exact .nil
  | cons event rest ih => exact .keep event ih

/-- What is left out would have had no effect. -/
theorem Thinned.foldl_absorb {last : Int} (h : Thinned last events batch)
    (hlast : last ≤ w.lastEvent) : batch.foldl absorb w = events.foldl absorb w := by
  induction h generalizing w with
  | nil => rfl
  | keep event _ ih => exact ih (hlast.trans (w.lastEvent_le_absorb event))
  | leaveOut hid hold _ ih =>
      rw [List.foldl_cons, w.absorb_of_id_le hid (hold.trans hlast)]
      exact ih hlast

/-- A prefix of what is left is left of a prefix. -/
theorem Thinned.take {last : Int} (h : Thinned last events batch) (count : Nat) :
    ∃ more, Thinned last (events.take more) (batch.take count) := by
  induction h generalizing count with
  | nil => exact ⟨0, by simpa using .nil⟩
  | keep event _ ih =>
      cases count with
      | zero => exact ⟨0, .nil⟩
      | succ count =>
          obtain ⟨more, hmore⟩ := ih count
          exact ⟨more + 1, .keep event hmore⟩
  | leaveOut hid hold _ ih =>
      obtain ⟨more, hmore⟩ := ih count
      exact ⟨more + 1, .leaveOut hid hold hmore⟩

/-! ## Absorbing again -/

/-- Events that were absorbed are absorbed again without effect. -/
theorem absorb_foldl_of_mem (hordered : InOrder events) {event : Event} (hevent : event ∈ events) :
    (events.foldl absorb w).absorb event = events.foldl absorb w := by
  induction events using List.reverseRecOn with
  | nil => exact absurd hevent List.not_mem_nil
  | append_singleton events last ih =>
      obtain ⟨hordered, -, hnewer⟩ := List.pairwise_append.1 hordered
      rw [List.foldl_append, List.foldl_cons, List.foldl_nil]
      rcases (events.foldl absorb w).absorb_eq_or_lt last with heq | ⟨id, hid, -, hlast⟩
      · -- the last event had no effect, and it would not have one now
        rw [heq]
        rcases List.mem_append.1 hevent with hmem | hmem
        · exact ih hordered hmem
        · rw [List.mem_singleton.1 hmem, heq]
      · -- the last event was applied, so that no event here is newer than the last one
        have hle : ∀ i ∈ event.id, i ≤ id := by
          intro i hi
          rcases List.mem_append.1 hevent with hmem | hmem
          · exact hnewer event hmem last (List.mem_singleton_self last) i hi id hid
          · rw [List.mem_singleton.1 hmem, hid, Option.mem_some_iff] at hi
            exact hi.ge
        cases hi : event.id with
        | none => exact absorb_of_id_eq_none _ hi
        | some i => exact absorb_of_id_le _ hi (hlast ▸ hle i hi)

/-- A prefix that is delivered after another one continues it, if it is longer. -/
theorem foldl_absorb_take (hordered : InOrder events) (first second : Nat) :
    (events.take second).foldl absorb ((events.take first).foldl absorb w) =
      (events.take (max first second)).foldl absorb w := by
  have hagain : ∀ count, count ≤ first →
      (events.take count).foldl absorb ((events.take first).foldl absorb w) =
        (events.take first).foldl absorb w := by
    intro count hle
    refine foldl_absorb_of_forall _ fun event hevent => ?_
    exact absorb_foldl_of_mem (hordered.sublist (List.take_sublist first events))
      ((List.take_sublist_take_left hle).mem hevent)
  rcases le_total second first with hle | hle
  · rw [max_eq_left hle, hagain second hle]
  · rw [max_eq_right hle]
    obtain ⟨more, rfl⟩ := Nat.exists_eq_add_of_le hle
    rw [List.take_add, List.foldl_append, hagain first le_rfl, List.foldl_append]

/-! ## Deliveries -/

/-- One call continues a prefix, and completes the list when it delivers all of it. -/
theorem applyEvents_foldl_absorb (hordered : InOrder events) {first second : Nat}
    (hcurrent : current = (events.take first).foldl absorb w)
    (hbatch : Thinned current.lastEvent (events.take second) batch) (limit : Option Nat) :
    (∃ count, (current.applyEvents batch limit).state = (events.take count).foldl absorb w) ∧
      ((current.applyEvents batch limit).answer.deferred = 0 →
        (current.applyEvents batch limit).state =
          (events.take (max first second)).foldl absorb w) := by
  obtain ⟨count, hstate, hall⟩ := current.applyEvents_state batch limit
  constructor
  · obtain ⟨more, hmore⟩ := hbatch.take count
    refine ⟨max first (min more second), ?_⟩
    rw [hstate, hmore.foldl_absorb le_rfl, List.take_take, hcurrent, foldl_absorb_take hordered]
  · intro hdeferred
    rw [hall hdeferred, hbatch.foldl_absorb le_rfl, hcurrent, foldl_absorb_take hordered]

theorem Delivered.exists_prefix (hordered : InOrder events) (h : Delivered events w current) :
    ∃ count, current = (events.take count).foldl absorb w := by
  induction h with
  | start => exact ⟨0, rfl⟩
  | call _ count hbatch limit ih =>
      obtain ⟨first, hfirst⟩ := ih
      exact (applyEvents_foldl_absorb hordered hfirst hbatch limit).1

/-- **Redelivery.**  However the events of a list are delivered, the workflow is where an unlimited
batch of a prefix brings it.  A call that delivers the whole list and puts nothing off brings it to
where an unlimited batch of the whole list does. -/
theorem Delivered.state_eq (hordered : InOrder events) (h : Delivered events w current) :
    (∃ count, current = (w.applyEvents (events.take count) none).state) ∧
      ∀ batch limit, Thinned current.lastEvent events batch →
        (current.applyEvents batch limit).answer.deferred = 0 →
          (current.applyEvents batch limit).state = (w.applyEvents events none).state := by
  simp only [applyEvents_none_state]
  obtain ⟨first, hfirst⟩ := h.exists_prefix hordered
  refine ⟨⟨first, hfirst⟩, fun batch limit hbatch hdeferred => ?_⟩
  have hwhole : events.take (max first events.length) = events :=
    List.take_of_length_le (le_max_right first events.length)
  rw [← List.take_length (l := events)] at hbatch
  rw [(applyEvents_foldl_absorb hordered hfirst hbatch limit).2 hdeferred, hwhole]

/-- Two jobs, one after the other. -/
def twoJobs : Workflow :=
  ((new none .default).load [⟨"a", .blank, ["b"]⟩, ⟨"b", .blank, []⟩]).state

/-- A report on a job that tells nothing but its kind. -/
def jobReport (id : Int) (change : JobChange) (name : String) : Event :=
  .new id (.job change) (.object [("name", .string name), ("job", .object [])])

/-- Reports on the two jobs.  One event has no id, one is about a job that is not there, and two ids
occur twice. -/
def jobReports : List Event :=
  [jobReport 1 .started "a", ⟨none, none, none, none⟩, jobReport 2 .failed "c",
    jobReport 2 .complete "a",
    .new 3 .workflowProgress (.object [("workflowProgress", .integer 40)]), jobReport 3 .failed "b",
    jobReport 4 .started "b", jobReport 5 .failed "b"]

/-- Five events come first, of which the limit lets one through. -/
def begun : Workflow :=
  (twoJobs.applyEvents (jobReports.take 5) (some 1)).state

/-- Then seven without that one, under a limit that they just reach. -/
def resumed : Workflow :=
  (begun.applyEvents (jobReports.take 7).tail (some 2)).state

theorem delivered_resumed : Delivered jobReports twoJobs resumed :=
  .call (.call .start 5 (.refl _ _) (some 1)) 7 (.leaveOut rfl (by decide +kernel) (.refl _ _))
    (some 2)

/-- A last call leaves out what has an id up to two and brings the one event that is new. -/
theorem redelivered_jobReports :
    (begun.lastEvent = 1 ∧ begun.jobs.map Job.status = [.running, .pending] ∧
        resumed.lastEvent = 4 ∧ resumed.jobs.map Job.status = [.complete, .running]) ∧
      (∃ count, resumed = (twoJobs.applyEvents (jobReports.take count) none).state) ∧
      (resumed.applyEvents (⟨none, none, none, none⟩ :: jobReports.drop 4) none).answer =
        ⟨1, 1, 3, 0, [(none, .incompleteEvent)]⟩ ∧
      (resumed.applyEvents (⟨none, none, none, none⟩ :: jobReports.drop 4) none).state =
        (twoJobs.applyEvents jobReports none).state := by
  obtain ⟨hreached, hwhole⟩ := Delivered.state_eq (by decide) delivered_resumed
  refine ⟨by decide +kernel, hreached, by decide +kernel, hwhole _ none ?_ ?_⟩
  · have hlast : 2 ≤ resumed.lastEvent := by decide +kernel
    exact .leaveOut rfl (le_trans (by decide) hlast)
      (.keep _ (.leaveOut rfl hlast (.leaveOut rfl hlast (.refl _ _))))
  · exact deferred_takeEvents_none resumed .empty _

end JobGraph.Workflow
