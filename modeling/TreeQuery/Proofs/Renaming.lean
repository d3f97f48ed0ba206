import TreeQuery.Proofs.Captures
import TreeQuery.Proofs.Moves
import TreeQuery.Proofs.Places

/-! Node numbers are only names. A tree whose nodes have other numbers is laid out at the same ids,
and a search on it that accepts the same nodes goes through the same states, with the captures bound
to the new numbers. -/

namespace TreeQuery

namespace Bindings

/-- The same names, each bound to what its node has become. -/
def rename (φ : Nat → Nat) (b : Bindings) : Bindings where
  entries := b.entries.map fun e => (e.1, φ e.2)
  sorted := by
    have hsorted := b.sorted
    rw [Sorted] at hsorted ⊢
    exact List.pairwise_map.mpr hsorted

variable {φ : Nat → Nat} {b c : Bindings}

theorem get?_rename (name : String) : (b.rename φ).get? name = (b.get? name).map φ := by
  obtain ⟨entries, hsorted⟩ := b
  change (entries.map fun e => (e.1, φ e.2)).lookup name = (entries.lookup name).map φ
  clear hsorted
  induction entries with
  | nil => rfl
  | cons e entries ih =>
    rw [List.map_cons, lookup_cons_eq_ite, lookup_cons_eq_ite, ih]
    split <;> rfl

theorem rename_bind (name : Option String) (node : Nat) :
    (b.bind name node).rename φ = (b.rename φ).bind name (φ node) := by
  refine ext_get? fun other => ?_
  rw [get?_rename, get?_bind, get?_bind, get?_rename]
  split <;> rfl

theorem rename_inj (hφ : φ.Injective) (h : b.rename φ = c.rename φ) : b = c := by
  refine ext_get? fun name => Option.map_injective hφ ?_
  rw [← get?_rename, ← get?_rename, h]

end Bindings

/-- The same place with another node number. -/
def Link.relabel (φ : Nat → Nat) (l : Link) : Link := { l with node := φ l.node }

namespace LinkedTree

def Pending.relabel (φ : Nat → Nat) (p : Pending) : Pending := { p with tree := p.tree.map φ }

/-- The same tree with other node numbers. -/
def relabel (φ : Nat → Nat) (t : LinkedTree) : LinkedTree :=
  { t with links := t.links.map (Link.relabel φ) }

variable {φ : Nat → Nat}

theorem Pending.link_relabel (p : Pending) : (p.relabel φ).link = p.link.relabel φ := by
  obtain ⟨⟨a, ts⟩, ancestors, path⟩ := p
  rfl

theorem Pending.below_relabel (p : Pending) (id : Nat) :
    (p.relabel φ).below id = (p.below id).map (relabel φ) := by
  obtain ⟨⟨a, ts⟩, ancestors, path⟩ := p
  apply List.ext_getElem?
  intro i
  rw [below, below, List.getElem?_mapIdx, List.getElem?_map, List.getElem?_mapIdx, relabel,
    Tree.map, Tree.children, Tree.children, Tree.mapAll_eq_map, List.getElem?_map, Option.map_map,
    Option.map_map]
  rfl

theorem layOut_map (links : Array Link) (pending : List Pending) :
    layOut (links.map (Link.relabel φ)) (pending.map (Pending.relabel φ)) =
      (layOut links pending).map (Link.relabel φ) := by
  fun_induction layOut links pending with
  | case1 links => rw [List.map_nil, layOut]
  | case2 links p rest waiting ih =>
    rw [← ih, List.map_cons, layOut, Array.size_map, Pending.below_relabel, Pending.link_relabel,
      ← List.map_append, Array.map_push]

theorem childTable_map (links : Array Link) :
    childTable (links.map (Link.relabel φ)) = childTable links := by
  rw [childTable, childTable, Array.toList_map, List.zipIdx_map, List.foldl_map, Array.size_map]
  rfl

theorem ofTree_map (t : Tree Nat) : ofTree (t.map φ) = (ofTree t).relabel φ := by
  have hlinks := layOut_map (φ := φ) #[] [⟨t, [], #[]⟩]
  rw [List.map_singleton, Array.map_empty, Pending.relabel] at hlinks
  simp only [ofTree, relabel, hlinks, childTable_map]

section Relabel

variable {t : LinkedTree} (id : Nat)

theorem size_relabel : (t.relabel φ).size = t.size := Array.size_map ..

theorem node_relabel (hφ : φ 0 = 0) : (t.relabel φ).node id = φ (t.node id) := by
  rw [node, node, relabel, Array.getElem?_map]
  cases t.links[id]? <;> simp [hφ, Link.relabel]

theorem ancestors_relabel : (t.relabel φ).ancestors = t.ancestors := by
  funext id
  rw [ancestors, ancestors, relabel, Array.getElem?_map, Option.map_map]
  rfl

theorem path_relabel : (t.relabel φ).path = t.path := by
  funext id
  rw [path, path, relabel, Array.getElem?_map, Option.map_map]
  rfl

theorem parent?_relabel : (t.relabel φ).parent? = t.parent? := by
  funext id
  rw [parent?, parent?, ancestors_relabel]

theorem childrenOf_relabel : (t.relabel φ).childrenOf = t.childrenOf := rfl

theorem firstChild?_relabel : (t.relabel φ).firstChild? = t.firstChild? := rfl

theorem directNeighbor?_relabel : (t.relabel φ).directNeighbor? = t.directNeighbor? := by
  funext id
  rw [directNeighbor?, directNeighbor?, parent?_relabel, path_relabel, childrenOf_relabel]

theorem firstNeighbor?_relabel (ancestor : Nat) (up : List Nat) :
    (t.relabel φ).firstNeighbor? ancestor up = t.firstNeighbor? ancestor up := by
  induction up with
  | nil => rfl
  | cons id up ih => rw [firstNeighbor?, firstNeighbor?, directNeighbor?_relabel, ih]

theorem neighborWithin?_relabel : (t.relabel φ).neighborWithin? = t.neighborWithin? := by
  funext id ancestor
  rw [neighborWithin?, neighborWithin?, firstNeighbor?_relabel, ancestors_relabel]

theorem nextWithin?_relabel : (t.relabel φ).nextWithin? = t.nextWithin? := by
  funext id ancestor
  rw [nextWithin?, nextWithin?, firstChild?_relabel, neighborWithin?_relabel]

theorem directChildOf?_relabel : (t.relabel φ).directChildOf? = t.directChildOf? := by
  funext id parent
  rw [directChildOf?, directChildOf?, parent?_relabel, ancestors_relabel, directNeighbor?_relabel]

theorem compare_relabel : (t.relabel φ).compare = t.compare := by
  funext a b
  rw [compare, compare, path_relabel]

end Relabel

end LinkedTree

namespace State

variable {φ : Nat → Nat} {t : LinkedTree} {s r : State}

/-- The same state on a tree with other node numbers. -/
def rename (φ : Nat → Nat) (s : State) : State := { s with bindings := s.bindings.rename φ }

theorem cursor_rename : (s.rename φ).cursor = s.cursor := rfl

theorem rename_inj (hφ : φ.Injective) (h : s.rename φ = r.rename φ) : s = r := by
  obtain ⟨root, cursor, b⟩ := s
  obtain ⟨root', cursor', c⟩ := r
  obtain ⟨hroot, hcursor, hbindings⟩ := State.mk.inj h
  exact State.mk.injEq .. ▸ ⟨hroot, hcursor, Bindings.rename_inj hφ hbindings⟩

theorem initial_relabel : initial (t.relabel φ) = (initial t).rename φ := rfl

theorem enter_rename (hφ : φ 0 = 0) (capture : Option String) (id : Nat) :
    (s.rename φ).enter (t.relabel φ) capture id = (s.enter t capture id).rename φ := by
  rw [enter, enter, rename, rename, LinkedTree.node_relabel id hφ, Bindings.rename_bind]
  rfl

theorem past_rename (id : Nat) : (s.rename φ).past (t.relabel φ) id = (s.past t id).rename φ := by
  rw [past, past, LinkedTree.neighborWithin?_relabel]
  rfl

theorem aligned?_rename : (s.rename φ).aligned? (t.relabel φ) = s.aligned? t := by
  rw [aligned?, aligned?, LinkedTree.directChildOf?_relabel]
  rfl

theorem align_rename : (s.rename φ).align (t.relabel φ) = (s.align t).rename φ := by
  rw [align, align, aligned?_rename]
  rfl

theorem notBefore_rename :
    (s.rename φ).notBefore (t.relabel φ) (r.rename φ) = (s.notBefore t r).rename φ := by
  obtain ⟨root, cursor, b⟩ := s
  obtain ⟨root', cursor', c⟩ := r
  simp only [notBefore, rename, LinkedTree.compare_relabel]
  cases cursor <;> cases cursor' <;> simp only
  split <;> rfl

end State

namespace Scene

/-- `scene` searches the tree of `other` with its nodes under other numbers, and accepts the same
nodes. Ids without a node count as the root does. -/
structure Renames (φ : Nat → Nat) (scene other : Scene) : Prop where
  tree_eq : scene.tree = other.tree.relabel φ
  injective : φ.Injective
  root_eq : φ 0 = 0
  acceptance_eq : ∀ f n b, scene.acceptance f (φ n) (b.rename φ) = other.acceptance f n b

namespace Renames

variable {φ : Nat → Nat} {scene other : Scene} {s : State} {find own : Find}

theorem candidates (h : scene.Renames φ other) (f : Filter) (s : State) :
    scene.candidates f (s.rename φ) = other.candidates f s := by
  rw [Scene.candidates, Scene.candidates, h.tree_eq, State.directChildren, State.directChildren,
    State.aligned?_rename, LinkedTree.neighbors, LinkedTree.neighbors, State.within, State.within,
    LinkedTree.within, LinkedTree.within, LinkedTree.directNeighbor?_relabel,
    LinkedTree.size_relabel, LinkedTree.nextWithin?_relabel]
  rfl

theorem accepts (h : scene.Renames φ other) (f : Filter) (s : State) (id : Nat) :
    scene.accepts f (s.rename φ) id = other.accepts f s id := by
  have hbound (name : String) :
      (((s.rename φ).bindings.get? name).all (· == φ (other.tree.node id))) =
        (s.bindings.get? name).all (· == other.tree.node id) := by
    rw [State.rename, Bindings.get?_rename, Option.all_map]
    congr 1
    funext n
    rw [Bool.eq_iff_iff, beq_iff_eq, beq_iff_eq]
    exact h.injective.eq_iff
  simp only [Scene.accepts, h.tree_eq, LinkedTree.node_relabel id h.root_eq, hbound]
  rw [← h.acceptance_eq]
  rfl

theorem below (h : scene.Renames φ other) (f : Filter) (captures : Bool) (s : State) (id : Nat)
    (hfind : ∀ r, find (r.rename φ) = (own r).map (·.rename φ)) :
    scene.below f captures find (s.rename φ) id =
      (other.below f captures own s id).map (·.rename φ) := by
  have hbindings : ((own (s.enter other.tree f.capture id)).map (·.rename φ)).map State.bindings =
      ((own (s.enter other.tree f.capture id)).map State.bindings).map (·.rename φ) := by
    rw [List.map_map, List.map_map]
    rfl
  simp only [Scene.below, h.tree_eq, State.enter_rename h.root_eq, hfind, hbindings,
    State.past_rename, eraseDups_map fun _ _ => Bindings.rename_inj h.injective]
  split
  · rw [List.map_map, List.map_map]
    rfl
  · rw [← List.map_take, List.map_map, List.map_map]
    rfl

theorem anywhere (h : scene.Renames φ other) (s before : State)
    (hfind : ∀ r, find (r.rename φ) = (own r).map (·.rename φ)) :
    scene.anywhere (s.rename φ) find (before.rename φ) =
      (other.anywhere s own before).map (·.rename φ) := by
  have hstart : (before.rename φ).startAt (s.rename φ) = (before.startAt s).rename φ := rfl
  rw [Scene.anywhere, Scene.anywhere, hstart, hfind, h.tree_eq, List.map_map, List.map_map]
  exact List.map_congr_left fun r _ => State.notBefore_rename

theorem covering (h : scene.Renames φ other) (nextOnly : Bool) (before : State)
    (hfind : ∀ r, find (r.rename φ) = (own r).map (·.rename φ)) :
    scene.covering nextOnly find (before.rename φ) =
      (other.covering nextOnly own before).map (·.rename φ) := by
  have halign : ((own before).map (·.rename φ)).map (·.align scene.tree) =
      ((own before).map (·.align other.tree)).map (·.rename φ) := by
    rw [h.tree_eq, List.map_map, List.map_map]
    exact List.map_congr_left fun r _ => State.align_rename
  simp only [Scene.covering, hfind, halign, State.cursor_rename]
  rw [h.tree_eq, LinkedTree.directNeighbor?_relabel]
  split
  · split
    · rw [List.filter_map]
      rfl
    · rfl
  · rfl

theorem results (h : scene.Renames φ other) (q : Query) (s : State) :
    scene.results q (s.rename φ) = (other.results q s).map (·.rename φ) := by
  induction q generalizing s with
  | single f nested ih =>
    rw [results_single, results_single, h.candidates, List.map_flatMap]
    refine List.flatMap_congr fun id _ => ?_
    rw [h.accepts]
    split
    · exact h.below f _ s id ih
    · rfl
  | container mode children ih =>
    have hmove : ∀ s r, State.rename φ s = State.rename φ r → s = r :=
      fun _ _ => State.rename_inj h.injective
    have haccumulated : accumulated (children.map scene.results) (s.rename φ) =
        (accumulated (children.map other.results) s).map (·.rename φ) :=
      accumulated_moved (.rename φ) hmove (fun _ _ => rfl) (P := fun _ => True)
        (fun q hq s _ => ih q hq s) (fun _ _ _ _ _ _ => trivial) trivial fun _ _ => trivial
    cases mode with
    | ordered =>
      rw [results_ordered, results_ordered]
      exact chain_moved (.rename φ) hmove (P := fun _ => True) (fun q hq s _ => ih q hq s)
        (fun _ _ _ _ _ _ => trivial) trivial
    | unordered =>
      rw [results_unordered, results_unordered]
      exact chain_moved (.rename φ) hmove (P := fun _ => True)
        (fun q hq before _ => h.anywhere s before (ih q hq)) (fun _ _ _ _ _ _ => trivial) trivial
    | any =>
      rw [results_any, results_any]
      split
      · rfl
      · exact haccumulated
    | optional =>
      rw [results_optional, results_optional]
      dsimp only
      rw [haccumulated, List.isEmpty_map]
      split <;> rfl
    | exact =>
      have hchain :
          chain List.eraseDups ((Query.stretches children).map scene.stretch) (s.rename φ) =
          (chain List.eraseDups ((Query.stretches children).map other.stretch) s).map
            (·.rename φ) :=
        chain_moved (.rename φ) hmove (P := fun _ => True)
          (fun part hpart before _ =>
            h.covering _ before (ih part.1 (Query.mem_of_mem_stretches hpart)))
          (fun _ _ _ _ _ _ => trivial) trivial
      rw [results_exact, results_exact]
      dsimp only
      rw [hchain]
      split
      · rw [List.filter_map]
        rfl
      · rfl

end Renames

end Scene

end TreeQuery
