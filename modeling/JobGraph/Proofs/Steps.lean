import Mathlib.Data.List.Basic

/-!
# Steps that may stop

A step that may stop gives an option, or an error that says why, and a sequence of such steps stops at
the first that does.  Steps that never stop do what the plain steps do, as a fold, a map or a filter.
-/

namespace JobGraph

/-- A sequence of two steps succeeds when both do. -/
theorem bind_eq_ok {Fault First Answer : Type} {first : Except Fault First}
    {next : First → Except Fault Answer} {answer : Answer} :
    first >>= next = .ok answer ↔ ∃ value, first = .ok value ∧ next value = .ok answer := by
  cases first with
  | error error => exact iff_of_false nofun (by simp)
  | ok value => exact ⟨fun h => ⟨value, rfl, h⟩, fun ⟨_, heq, h⟩ => Except.ok.inj heq ▸ h⟩

variable {σ α β : Type}

/-- Steps that an invariant of the state and of what is still to come allows do not stop. -/
theorem foldlM_eq_some_foldl {step? : σ → α → Option σ} {step : σ → α → σ}
    (I : σ → List α → Prop)
    (hstep : ∀ state next rest, I state (next :: rest) →
      step? state next = some (step state next) ∧ I (step state next) rest)
    {state : σ} {list : List α} (h : I state list) :
    list.foldlM step? state = some (list.foldl step state) ∧ I (list.foldl step state) [] := by
  induction list generalizing state with
  | nil => exact ⟨rfl, h⟩
  | cons next rest ih =>
      obtain ⟨hdone, hrest⟩ := hstep state next rest h
      rw [List.foldlM_cons, hdone]
      exact ih hrest

/-- Steps that an invariant of the state allows do not stop, if each keeps it. -/
theorem foldlM_eq_some_foldl_of_mem {step? : σ → α → Option σ} {step : σ → α → σ} {list : List α}
    (I : σ → Prop)
    (hstep : ∀ state, I state → ∀ next ∈ list,
      step? state next = some (step state next) ∧ I (step state next))
    {state : σ} (h : I state) :
    list.foldlM step? state = some (list.foldl step state) ∧ I (list.foldl step state) := by
  have hnext : ∀ state next rest, (I state ∧ ∀ item ∈ next :: rest, item ∈ list) →
      step? state next = some (step state next) ∧
        I (step state next) ∧ ∀ item ∈ rest, item ∈ list := by
    rintro state next rest ⟨hstate, hmem⟩
    obtain ⟨hnext, hrest⟩ := List.forall_mem_cons.1 hmem
    obtain ⟨hdone, hkept⟩ := hstep state hstate next hnext
    exact ⟨hdone, hkept, hrest⟩
  obtain ⟨hdone, hkept, -⟩ := foldlM_eq_some_foldl
    (fun state rest => I state ∧ ∀ item ∈ rest, item ∈ list) hnext ⟨h, fun _ hitem => hitem⟩
  exact ⟨hdone, hkept⟩

section Reading

variable {read? : α → Option β}

theorem mapM_eq_some_map {read : α → β} {parts : List α}
    (h : ∀ part ∈ parts, read? part = some (read part)) :
    parts.mapM read? = some (parts.map read) := by
  induction parts with
  | nil => rfl
  | cons part rest ih =>
      obtain ⟨hpart, hrest⟩ := List.forall_mem_cons.1 h
      rw [List.mapM_cons, hpart, ih hrest]
      rfl

theorem exists_of_mem_mapM {parts : List α} {found : List β} {value : β}
    (h : parts.mapM read? = some found) (hvalue : value ∈ found) :
    ∃ part ∈ parts, read? part = some value := by
  induction parts generalizing found with
  | nil =>
      rw [← Option.some.inj h] at hvalue
      exact absurd hvalue List.not_mem_nil
  | cons part parts ih =>
      simp only [List.mapM_cons, Option.bind_eq_bind, Option.bind_eq_some_iff, Option.pure_def,
        Option.some.injEq] at h
      obtain ⟨first, hfirst, others, hothers, rfl⟩ := h
      rcases List.mem_cons.1 hvalue with rfl | hvalue
      · exact ⟨part, List.mem_cons_self, hfirst⟩
      · obtain ⟨other, hother, hread⟩ := ih hothers hvalue
        exact ⟨other, List.mem_cons_of_mem part hother, hread⟩

/-- Steps of which none stopped succeeded one by one. -/
theorem isSome_of_mapM_eq_some {parts : List α} {found : List β}
    (h : parts.mapM read? = some found) : ∀ part ∈ parts, (read? part).isSome := by
  induction parts generalizing found with
  | nil => exact fun _ hpart => absurd hpart List.not_mem_nil
  | cons part rest ih =>
      simp only [List.mapM_cons, Option.bind_eq_bind, Option.bind_eq_some_iff] at h
      obtain ⟨value, hvalue, others, hothers, -⟩ := h
      rw [List.forall_mem_cons]
      exact ⟨Option.isSome_of_eq_some hvalue, ih hothers⟩

end Reading

theorem filterMapM_eq_some_filterMap {choose? : α → Option (Option β)} {choose : α → Option β}
    {list : List α} (h : ∀ item ∈ list, choose? item = some (choose item)) :
    list.filterMapM choose? = some (list.filterMap choose) := by
  induction list with
  | nil => rfl
  | cons item rest ih =>
      obtain ⟨hitem, hrest⟩ := List.forall_mem_cons.1 h
      rw [List.filterMapM_cons, hitem, ih hrest, List.filterMap_cons]
      cases choose item <;> rfl

theorem isSome_of_filterMapM_eq_some {choose? : α → Option (Option β)} {list : List α}
    {chosen : List β} (h : list.filterMapM choose? = some chosen) :
    ∀ item ∈ list, (choose? item).isSome := by
  induction list generalizing chosen with
  | nil => exact fun _ hitem => absurd hitem List.not_mem_nil
  | cons item rest ih =>
      rw [List.filterMapM_cons] at h
      obtain ⟨choice, hchoice, h⟩ := Option.bind_eq_some_iff.1 h
      have hrest : ∃ others, rest.filterMapM choose? = some others := by
        cases choice with
        | none => exact ⟨_, h⟩
        | some value =>
            obtain ⟨others, hothers, -⟩ := Option.bind_eq_some_iff.1 h
            exact ⟨others, hothers⟩
      obtain ⟨others, hothers⟩ := hrest
      rw [List.forall_mem_cons]
      exact ⟨Option.isSome_of_eq_some hchoice, ih hothers⟩

end JobGraph
