import TreeQuery.Proofs.Candidates
import TreeQuery.Proofs.CaptureFree
import TreeQuery.Proofs.Places
import TreeQuery.Proofs.ScopeLocality

/-! Single queries with a name of their own. Each node that fits gives one result, and whether a
node fits does not depend on what is bound. -/

namespace TreeQuery

/-- Asks for one node and binds it; what it asks of the nodes below binds nothing. -/
structure Slot where
  name : String
  type : Option String := none
  properties : Option Properties := none
  direct : Bool := false
  nested : Query := .empty
  captureFree : nested.hasCaptures = false

namespace Slot

def filter (slot : Slot) : Filter :=
  { type := slot.type, properties := slot.properties, direct := slot.direct,
    capture := some slot.name }

def query (slot : Slot) : Query := .single slot.filter slot.nested

end Slot

theorem flatMap_ite_eq_map_filter {α β : Type} (p : α → Bool) (f : α → β) (l : List α) :
    (l.flatMap fun a => if p a then [f a] else []) = (l.filter p).map f := by
  induction l with
  | nil => rfl
  | cons a l ih =>
    rw [List.flatMap_cons, ih, List.filter_cons]
    split <;> rfl

namespace Scene

variable (scene : Scene)

/-- In the scope of the start and not before it, a node that a slot takes. -/
structure Fits (start : State) (slot : Slot) (id : Nat) : Prop where
  reached : start.Reaches scene.tree id
  direct : slot.direct → scene.tree.parent? id = some start.root
  accepted : scene.acceptance slot.filter (scene.tree.node id) .empty
  nested : scene.results slot.nested ⟨id, scene.tree.firstChild? id, .empty⟩ ≠ []

def fitting (slot : Slot) (s : State) : List Nat :=
  (scene.candidates slot.filter s).items.filter fun id =>
    scene.acceptance slot.filter (scene.tree.node id) .empty &&
      !(scene.results slot.nested ⟨id, scene.tree.firstChild? id, .empty⟩).isEmpty

variable {scene} {t : Tree Nat} {s : State} {slot : Slot} {id : Nat}

theorem mem_fitting_iff (hscene : scene.tree = .ofTree t) (hs : s.WellScoped (.ofTree t)) :
    id ∈ scene.fitting slot s ↔ scene.Fits s slot id := by
  rw [fitting, List.mem_filter, mem_candidates_iff hscene hs, Bool.and_eq_true,
    Bool.not_eq_true', List.isEmpty_eq_false_iff]
  constructor
  · rintro ⟨⟨hreached, hdirect⟩, haccepted, hnested⟩
    exact ⟨hscene ▸ hreached, hscene ▸ hdirect, haccepted, hnested⟩
  · rintro ⟨hreached, hdirect, haccepted, hnested⟩
    exact ⟨⟨hscene ▸ hreached, hscene ▸ hdirect⟩, haccepted, hnested⟩

theorem pairwise_fitting (hscene : scene.tree = .ofTree t) (hs : s.WellScoped (.ofTree t)) :
    (scene.fitting slot s).Pairwise (· < ·) :=
  (pairwise_candidates hscene hs slot.filter).filter _

theorem results_slot (hignores : scene.IgnoresBindings)
    (hnew : s.bindings.get? slot.name = none) :
    scene.results slot.query s = (scene.fitting slot s).map fun id =>
      (s.past scene.tree id).withBindings (s.bindings.insert slot.name (scene.tree.node id)) := by
  rw [Slot.query, results_single, fitting, ← flatMap_ite_eq_map_filter]
  congr 1
  funext id
  have haccepts : scene.accepts slot.filter s id =
      scene.acceptance slot.filter (scene.tree.node id) .empty := by
    simp [accepts, Slot.filter, hnew, hignores _ _ s.bindings .empty]
  have hplace : (s.enter scene.tree slot.filter.capture id).SamePlace
      ⟨id, scene.tree.firstChild? id, .empty⟩ := ⟨rfl, rfl⟩
  have hempty := (paired_results_of_captureFree hignores slot.captureFree hplace).isEmpty_eq
  rw [haccepts, below_of_captureFree slot.captureFree, hempty]
  cases scene.acceptance slot.filter (scene.tree.node id) .empty with
  | false => simp
  | true =>
    cases (scene.results slot.nested ⟨id, scene.tree.firstChild? id, .empty⟩).isEmpty with
    | false => rfl
    | true => rfl

end Scene

/-- Searching below an id is searching the tree of its node. -/
theorem Matcher.results_below (m : Matcher) {p : Tree Presented} {n : Nat} {t u : Tree Nat}
    (h : (Subject.ofTree p).tree? n = some t) {id : Nat} (hu : t.subtrees[id]? = some u)
    (q : Query) :
    (m.scene (.ofTree p) (.ofTree t)).results q
        ⟨id, (LinkedTree.ofTree t).firstChild? id, .empty⟩ =
      (m.searchBelow q (.ofTree p) ((LinkedTree.ofTree t).node id)).items.map (State.shift id) := by
  let whole := m.scene (.ofTree p) (.ofTree t)
  have hinside : whole.Inside (m.scene (.ofTree p) (.ofTree u)) t u id := ⟨rfl, rfl, hu, rfl⟩
  have hstart : ⟨id, (LinkedTree.ofTree t).firstChild? id, .empty⟩ =
      (State.initial (.ofTree u)).shift id := by
    have hfirst := LinkedTree.firstChild?_add hu (Tree.size_pos u)
    simpa [State.shift, State.initial, LinkedTree.root] using hfirst
  rw [hstart, hinside.results q State.initial_wellScoped, LinkedTree.node_ofTree hu,
    items_searchBelow, Subject.tree?_of_subtrees h hu]
  simp

/-- A node other than the root that passes the filters of a slot and has below it what the slot asks
for there. -/
structure Slot.Matches (slot : Slot) (m : Matcher) (n : Node) (id : Nat) : Prop where
  inside : 0 < id ∧ id < n.size
  type : ∀ type, slot.type = some type → (Subject.ofNode n).type id = type
  properties : ∀ ps, slot.properties = some ps → ∀ e ∈ ps.entries,
    (((Subject.ofNode n).property? id e.1).getD .null).same e.2
  direct : slot.direct → (LinkedTree.ofTree n.places).parent? id = some 0
  nested : (m.searchBelow slot.nested (.ofNode n) id).items ≠ []

theorem State.initial_reaches_iff {t : Tree Nat} {id : Nat} :
    (State.initial (.ofTree t)).Reaches (.ofTree t) id ↔ 0 < id ∧ id < t.size := by
  have hpos := Tree.size_pos t
  rw [Reaches, LinkedTree.mem_ancestors_iff_lt_stop, initial, LinkedTree.root,
    LinkedTree.firstChild?_eq hpos, LinkedTree.stop_root]
  constructor
  · exact And.left
  · intro h
    exact ⟨h, 1, if_pos (by omega), h.1⟩

theorem Slot.fits_iff (config : MatchConfig) (traced : Bool) (n : Node) (slot : Slot) (id : Nat) :
    let m : Matcher := { config, traced }
    (m.scene (.ofNode n) (.ofTree n.places)).Fits (.initial (.ofTree n.places)) slot id ↔
      slot.Matches m n id := by
  intro m
  have hnested (hid : id < n.size) :
      (m.scene (.ofNode n) (.ofTree n.places)).results slot.nested
          ⟨id, (LinkedTree.ofTree n.places).firstChild? id, .empty⟩ ≠ [] ↔
        (m.searchBelow slot.nested (.ofNode n) id).items ≠ [] := by
    have hu := List.getElem?_eq_getElem (l := n.places.subtrees) (i := id)
      (by rwa [Tree.length_subtrees, Tree.size_places])
    have hresults := m.results_below (Subject.tree?_ofNode n) hu slot.nested
    rw [LinkedTree.node_places hid] at hresults
    rw [Subject.ofNode, hresults, ne_eq, List.map_eq_nil_iff]
  have haccepted (hid : id < n.size) :
      (m.scene (.ofNode n) (.ofTree n.places)).acceptance slot.filter
          ((LinkedTree.ofTree n.places).node id) .empty ↔
        (∀ type, slot.type = some type → (Subject.ofNode n).type id = type) ∧
        ∀ ps, slot.properties = some ps → ∀ e ∈ ps.entries,
          (((Subject.ofNode n).property? id e.1).getD .null).same e.2 := by
    rw [LinkedTree.node_places hid]
    exact NodeKind.acceptsBy_iff
  have hreached : (State.initial (.ofTree n.places)).Reaches (.ofTree n.places) id ↔
      0 < id ∧ id < n.size := by
    rw [State.initial_reaches_iff, Tree.size_places]
  constructor
  · rintro ⟨hr, hdirect, ha, hn⟩
    have hinside := hreached.mp hr
    obtain ⟨htype, hproperties⟩ := (haccepted hinside.2).mp ha
    exact ⟨hinside, htype, hproperties, hdirect, (hnested hinside.2).mp hn⟩
  · rintro ⟨hinside, htype, hproperties, hdirect, hn⟩
    exact ⟨hreached.mpr hinside, hdirect, (haccepted hinside.2).mpr ⟨htype, hproperties⟩,
      (hnested hinside.2).mpr hn⟩

end TreeQuery
