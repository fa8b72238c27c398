import JobGraph.Proofs.Graph.Reading

/-!
# Neighbours by id

A node keeps its parents twice: in a list, once for each edge, and in an index by id.  It keeps its
children in the same way.  A `Side` is a list with its index, and an edge is added to or dropped from
one side of either end.

* `Known`: an id leads to a neighbour that has it.
* `Finds`: an id that a neighbour has leads somewhere.  Dropping the last edge to a neighbour forgets
  its id, no matter who else has it.  So this is kept only where the neighbours of an id are one:
  `Unambiguous`.
-/

namespace JobGraph

/-- Neighbours of a node, once for each edge, with their index. -/
structure Side where
  keys : List NodeKey
  index : IdIndex

namespace Side

/-- No neighbours. -/
def empty : Side :=
  ⟨[], .empty⟩

/-- One more edge, to a neighbour of that id. -/
def add (side : Side) (id : String) (key : NodeKey) : Side :=
  ⟨side.keys ++ [key], side.index.insert id key⟩

/-- One edge less, to a neighbour of that id. -/
def drop (side : Side) (id : String) (key : NodeKey) : Side :=
  ⟨side.keys.erase key, Graph.forgetNeighbour side.index (side.keys.erase key) id key⟩

/-- The neighbours are nodes, and the index leads from ids to neighbours that have them. -/
structure Known (id? : NodeKey → Option String) (side : Side) : Prop where
  isSome_id? : ∀ key ∈ side.keys, (id? key).isSome
  of_get? : ∀ id key, side.index.get? id = some key → key ∈ side.keys ∧ id? key = some id

/-- If a neighbour has the id, the index leads somewhere from it. -/
def Finds (id? : NodeKey → Option String) (id : String) (side : Side) : Prop :=
  (∃ key ∈ side.keys, id? key = some id) → (side.index.get? id).isSome

/-- No two neighbours have the id. -/
def Unambiguous (id? : NodeKey → Option String) (id : String) (side : Side) : Prop :=
  ∀ first ∈ side.keys, ∀ second ∈ side.keys, id? first = some id → id? second = some id →
    first = second

instance (id? : NodeKey → Option String) (id : String) (side : Side) :
    Decidable (Unambiguous id? id side) :=
  inferInstanceAs (Decidable (∀ first ∈ side.keys, ∀ second ∈ side.keys, id? first = some id →
    id? second = some id → first = second))

variable {id? id?' : NodeKey → Option String} {side : Side} {id name : String} {key : NodeKey}

/-- An id is forgotten with the last edge. -/
theorem get?_forgetNeighbour (index : IdIndex) (left : List NodeKey) (id : String) (key : NodeKey)
    (other : String) :
    (Graph.forgetNeighbour index left id key).get? other =
      if key ∉ left ∧ other = id then none else index.get? other := by
  unfold Graph.forgetNeighbour
  by_cases hleft : key ∈ left
  · simp [hleft]
  · rw [if_neg (by simpa using hleft), IdIndex.get?_erase]
    simp [hleft]

/-! ## Known neighbours -/

theorem known_empty (id? : NodeKey → Option String) : Known id? empty :=
  ⟨fun _ hkey => absurd hkey List.not_mem_nil, fun _ _ hget => absurd hget nofun⟩

/-- More nodes may come to have ids. -/
theorem Known.mono (h : Known id? side) (hid : ∀ key id, id? key = some id → id?' key = some id) :
    Known id?' side where
  isSome_id? key hkey := by
    obtain ⟨id, hsome⟩ := Option.isSome_iff_exists.1 (h.isSome_id? key hkey)
    rw [hid key id hsome]
    rfl
  of_get? id key hget :=
    ⟨(h.of_get? id key hget).1, hid key id (h.of_get? id key hget).2⟩

theorem Known.add (h : Known id? side) (hid : id? key = some id) : Known id? (side.add id key) where
  isSome_id? other hother := by
    rcases List.mem_append.1 hother with hold | hnew
    · exact h.isSome_id? other hold
    · rw [List.mem_singleton.1 hnew, hid]
      rfl
  of_get? name other hget := by
    replace hget : (side.index.insert id key).get? name = some other := hget
    rw [IdIndex.get?_insert] at hget
    split at hget
    · rename_i hname
      rw [← Option.some.inj hget, hname]
      exact ⟨List.mem_append_right _ (List.mem_singleton_self key), hid⟩
    · obtain ⟨hmem, hlabel⟩ := h.of_get? name other hget
      exact ⟨List.mem_append_left _ hmem, hlabel⟩

theorem Known.drop (h : Known id? side) (hid : id? key = some id) :
    Known id? (side.drop id key) where
  isSome_id? other hother := h.isSome_id? other (List.mem_of_mem_erase hother)
  of_get? name other hget := by
    replace hget : (Graph.forgetNeighbour side.index (side.keys.erase key) id key).get? name =
        some other := hget
    rw [get?_forgetNeighbour] at hget
    split at hget
    · exact absurd hget nofun
    · rename_i hkept
      obtain ⟨hmem, hlabel⟩ := h.of_get? name other hget
      refine ⟨?_, hlabel⟩
      -- the one that was dropped is named by its own id, so it has another edge
      by_cases hother : other = key
      · rw [hother, hid, Option.some.injEq] at hlabel
        rw [hother]
        exact not_not.1 fun hgone => hkept ⟨hgone, hlabel.symm⟩
      · exact (List.mem_erase_of_ne hother).2 hmem

/-! ## Neighbours that are found -/

theorem finds_empty (id? : NodeKey → Option String) (id : String) : Finds id? id empty :=
  fun ⟨_, hkey, _⟩ => absurd hkey List.not_mem_nil

/-- Only the ids of the neighbours matter. -/
theorem Finds.congr (h : Finds id? id side) (hsame : ∀ key ∈ side.keys, id?' key = id? key) :
    Finds id?' id side := by
  rintro ⟨key, hkey, hid⟩
  exact h ⟨key, hkey, by rwa [← hsame key hkey]⟩

theorem Finds.add (h : Finds id? id side) (name : String) (hname : id? key = some name) :
    Finds id? id (side.add name key) := by
  rintro ⟨other, hother, hlabel⟩
  show ((side.index.insert name key).get? id).isSome
  rw [IdIndex.get?_insert]
  split
  · rfl
  · rename_i hne
    rcases List.mem_append.1 hother with hold | hnew
    · exact h ⟨other, hold, hlabel⟩
    · rw [List.mem_singleton.1 hnew, hname, Option.some.injEq] at hlabel
      exact absurd hlabel.symm hne

/-- Whoever is left when an id is forgotten is not found any more. -/
theorem Finds.drop (h : Finds id? id side) (hone : Unambiguous id? id side)
    (hkey : key ∈ side.keys) (hname : id? key = some name) : Finds id? id (side.drop name key) := by
  rintro ⟨other, hother, hlabel⟩
  show ((Graph.forgetNeighbour side.index (side.keys.erase key) name key).get? id).isSome
  rw [get?_forgetNeighbour, if_neg]
  · exact h ⟨other, List.mem_of_mem_erase hother, hlabel⟩
  · rintro ⟨hgone, rfl⟩
    rw [hone other (List.mem_of_mem_erase hother) key hkey hlabel hname] at hother
    exact hgone hother

theorem Unambiguous.congr (h : Unambiguous id? id side)
    (hsame : ∀ key ∈ side.keys, id?' key = id? key) : Unambiguous id?' id side := by
  intro first hfirst second hsecond hid hid'
  rw [hsame first hfirst] at hid
  rw [hsame second hsecond] at hid'
  exact h first hfirst second hsecond hid hid'

/-- A neighbour may be added to a side without neighbours, or if nobody else has its id. -/
theorem Unambiguous.add (h : Unambiguous id? id side) (name : String)
    (hown : side.keys = [] ∨ ∀ other, id? other = id? key → other = key) :
    Unambiguous id? id (side.add name key) := by
  have hcases : ∀ other ∈ (side.add name key).keys, other ∈ side.keys ∨ other = key :=
    fun other hother => (List.mem_append.1 hother).imp_right List.mem_singleton.1
  rcases hown with hnone | hown
  · intro first hfirst second hsecond _ _
    have hkey : ∀ other ∈ (side.add name key).keys, other = key := fun other hother =>
      (hcases other hother).resolve_left (by simp [hnone])
    rw [hkey first hfirst, hkey second hsecond]
  · intro first hfirst second hsecond hid hid'
    rcases hcases first hfirst with hfirst | rfl
    · rcases hcases second hsecond with hsecond | rfl
      · exact h first hfirst second hsecond hid hid'
      · exact hown first (hid.trans hid'.symm)
    · exact (hown second (hid'.trans hid.symm)).symm

theorem Unambiguous.drop (h : Unambiguous id? id side) (name : String) (key : NodeKey) :
    Unambiguous id? id (side.drop name key) :=
  fun first hfirst second hsecond =>
    h first (List.mem_of_mem_erase hfirst) second (List.mem_of_mem_erase hsecond)

end Side

namespace Graph

variable {α : Type}

/-! ## The sides of a node -/

/-- Which neighbours of a node are meant. -/
inductive Direction where
  | parents
  | children

/-- The end of an edge that has the other one for a neighbour in that direction. -/
def Edge.holder (edge : Edge) : Direction → NodeKey
  | .parents => edge.dependent
  | .children => edge.parent

/-- The end of an edge that is the neighbour in that direction. -/
def Edge.neighbour (edge : Edge) : Direction → NodeKey
  | .parents => edge.parent
  | .children => edge.dependent

end Graph

/-- The neighbours of a node in one direction. -/
def Node.side {α : Type} (node : Node α) : Graph.Direction → Side
  | .parents => ⟨node.parents, node.parentIndex⟩
  | .children => ⟨node.children, node.childIndex⟩

namespace Graph

variable {α : Type} (g : Graph α)

/-- The neighbours that a key has in one direction. -/
def side (direction : Direction) (key : NodeKey) : Side :=
  (g.node? key).elim .empty fun node => node.side direction

/-- The id of a key that names a node. -/
def id? (key : NodeKey) : Option String :=
  (g.node? key).map Node.id

variable {g}

theorem id?_eq_some_idOf {key : NodeKey} (hkey : key < g.nodes.size) :
    g.id? key = some (g.idOf key) := by
  cases hnode : g.node? key with
  | none => exact absurd hkey (not_lt.2 ((g.node?_eq_none_iff key).1 hnode))
  | some node => rw [id?, idOf, hnode, Option.map_some, Option.elim_some]

theorem lt_of_isSome_id? {key : NodeKey} (h : (g.id? key).isSome) : key < g.nodes.size := by
  rw [id?, Option.isSome_map] at h
  by_contra hmissing
  rw [(g.node?_eq_none_iff key).2 (not_lt.1 hmissing)] at h
  exact Bool.false_ne_true h

theorem keys_side_parents (key : NodeKey) : (g.side .parents key).keys = g.parentsOf key := by
  unfold side parentsOf
  cases g.node? key <;> rfl

theorem keys_side_children (key : NodeKey) : (g.side .children key).keys = g.childrenOf key := by
  unfold side childrenOf
  cases g.node? key <;> rfl

/-! ## Edges -/

theorem id?_of_bareNode?_eq {g' : Graph α} {key : NodeKey}
    (h : g'.bareNode? key = g.bareNode? key) : g'.id? key = g.id? key := by
  have := congrArg (fun node => node.map Node.id) h
  simpa [bareNode?, id?, Function.comp_def, Node.withoutEdges] using this

theorem id?_addEdge (dependent parent : NodeKey) : (g.addEdge dependent parent).id? = g.id? :=
  funext fun key => id?_of_bareNode?_eq (g.bareNode?_addEdge dependent parent key)

theorem id?_removeEdge (dependent parent : NodeKey) : (g.removeEdge dependent parent).id? = g.id? :=
  funext fun key => id?_of_bareNode?_eq (g.bareNode?_removeEdge dependent parent key)

/-- Both ends of an edge change, each on the side where it holds the other one. -/
private theorem side_modifyNode_ends {up down : Node α → Node α} {edge : Edge}
    (effect : Direction → Side → Side)
    (hup : ∀ node, (up node).side .parents = effect .parents (node.side .parents) ∧
      (up node).side .children = node.side .children)
    (hdown : ∀ node, (down node).side .parents = node.side .parents ∧
      (down node).side .children = effect .children (node.side .children))
    (hends : (edge.dependent < g.nodes.size ∧ edge.parent < g.nodes.size) ∨
      ∀ direction, effect direction .empty = .empty) (direction : Direction) (key : NodeKey) :
    ((g.modifyNode edge.dependent up).modifyNode edge.parent down).side direction key =
      if key = edge.holder direction then effect direction (g.side direction key)
      else g.side direction key := by
  cases direction with
  | parents =>
      have hkey := hends.imp And.left fun hempty => hempty .parents
      refine (elim_modifyNode_of_same _ edge.parent (fun node => node.side .parents) .empty
        (fun node => (hdown node).1) key).trans ?_
      exact elim_modifyNode g (fun node => node.side .parents) .empty (effect .parents)
        (fun node => (hup node).1) hkey key
  | children =>
      have hkey := hends.imp And.right fun hempty => hempty .children
      have hsame := elim_modifyNode_of_same g edge.dependent (fun node => node.side .children) .empty
        (fun node => (hup node).2) key
      refine (elim_modifyNode _ (fun node => node.side .children) .empty (effect .children)
        (fun node => (hdown node).2) (by simpa using hkey) key).trans ?_
      rw [hsame]
      rfl

/-- An edge is added to one side of either end. -/
theorem side_addEdge (edge : Edge) (hdependent : edge.dependent < g.nodes.size)
    (hparent : edge.parent < g.nodes.size) (direction : Direction) (key : NodeKey) :
    (g.addEdge edge.dependent edge.parent).side direction key =
      if key = edge.holder direction then
        (g.side direction key).add (g.idOf (edge.neighbour direction)) (edge.neighbour direction)
      else g.side direction key := by
  rw [addEdge, if_pos (by simp [has, hdependent, hparent])]
  refine side_modifyNode_ends
    (fun direction side => side.add (g.idOf (edge.neighbour direction)) (edge.neighbour direction))
    ?_ ?_ (.inl ⟨hdependent, hparent⟩) direction key
  · exact fun node => ⟨rfl, rfl⟩
  · exact fun node => ⟨rfl, rfl⟩

/-- An edge is dropped from one side of either end. -/
theorem side_removeEdge (edge : Edge) (hedge : edge.parent ∈ g.parentsOf edge.dependent)
    (direction : Direction) (key : NodeKey) :
    (g.removeEdge edge.dependent edge.parent).side direction key =
      if key = edge.holder direction then
        (g.side direction key).drop (g.idOf (edge.neighbour direction)) (edge.neighbour direction)
      else g.side direction key := by
  rw [removeEdge, if_pos (by simpa [hasEdge] using hedge)]
  refine side_modifyNode_ends
    (fun direction side => side.drop (g.idOf (edge.neighbour direction)) (edge.neighbour direction))
    ?_ ?_ (.inr fun _ => rfl) direction key
  · exact fun node => ⟨rfl, rfl⟩
  · exact fun node => ⟨rfl, rfl⟩

end Graph

end JobGraph
