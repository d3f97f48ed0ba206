import TreeQuery.Proofs.Navigation
import TreeQuery.Proofs.Numbering
import TreeQuery.Proofs.Results

/-! Subjects whose nodes present themselves. Such a subject is searched as it stands, and the ids of
its linked tree are the numbers of its nodes. -/

namespace TreeQuery

namespace Tree

variable {α β : Type}

@[elab_as_elim]
theorem induction {motive : Tree α → Prop}
    (node : ∀ a ts, (∀ t ∈ ts, motive t) → motive (.node a ts)) (t : Tree α) : motive t := by
  induction hn : t.size using Nat.strongRecOn generalizing t with
  | ind n ih =>
    obtain ⟨a, ts⟩ := t
    refine node a ts fun u hu => ?_
    exact ih u.size (hn ▸ size_lt_of_mem_children (t := .node a ts) hu) u rfl

theorem mapAll_eq_map (f : α → β) (ts : List (Tree α)) : mapAll f ts = ts.map (map f) := by
  induction ts with
  | nil => rfl
  | cons t ts ih => rw [mapAll, ih, List.map_cons]

theorem preorders_mapAll (f : α → β) (ts : List (Tree α)) :
    preorders (mapAll f ts) = (preorders ts).map f := by
  induction ts using walk_induction with
  | nil => rfl
  | cons t ts ih =>
    obtain ⟨a, us⟩ := t
    rw [children, mapAll_eq_map, List.map_append, ← mapAll_eq_map, ← mapAll_eq_map,
      preorders_append, preorders_append] at ih
    rw [mapAll, map, preorders, preorder, preorders, preorder, List.cons_append, ih,
      List.cons_append, List.map_cons]

theorem preorder_map (f : α → β) (t : Tree α) : (t.map f).preorder = t.preorder.map f := by
  have h := preorders_mapAll f [t]
  simpa [mapAll, preorders] using h

theorem length_preorder (t : Tree α) : t.preorder.length = t.size := by
  rw [← map_label_subtrees, List.length_map, length_subtrees]

theorem size_map (f : α → β) (t : Tree α) : (t.map f).size = t.size := by
  rw [← length_preorder, preorder_map, List.length_map, length_preorder]

/-- The same tree with the place of each node in pre-order for its label. -/
def places (t : Tree α) : Tree Nat := (t.number 0).map Prod.fst

theorem preorder_places (t : Tree α) : t.places.preorder = List.range t.size := by
  have h := numbers_preorders 0 [t]
  rw [places, preorder_map, List.range_eq_range']
  simpa [numberAll, preorders, sizes] using h

theorem size_places (t : Tree α) : t.places.size = t.size := by
  rw [← length_preorder, preorder_places, List.length_range]

theorem label_number_map (f : α → β) (t : Tree α) (start : Nat) :
    ((t.map f).number start).label.2 = f t.label := by
  obtain ⟨a, ts⟩ := t
  rfl

theorem targets_eq_self {t : Tree Numbered} (h : t.label.2.targets = [[]]) : t.targets = [t] := by
  simp [targets, h, at?]

end Tree

namespace LinkedTree

variable {α : Type} {t : Tree α} {id : Nat}

theorem node_places (h : id < t.size) : (ofTree t.places).node id = id := by
  have hnode : (ofTree t.places).links[id]?.map Link.node = some id := by
    rw [← Array.getElem?_toList, ← List.getElem?_map, nodes_ofTree, Tree.preorder_places,
      List.getElem?_range h]
  rw [node, hnode, Option.getD_some]

theorem node_places_of_mem_ancestors {a : Nat} (h : a ∈ (ofTree t.places).ancestors id) :
    (ofTree t.places).node id = id :=
  node_places (Tree.size_places t ▸ lt_size_of_mem_ancestors h)

end LinkedTree

namespace Subject

/-- A node that presents itself. -/
def present (e : Element) : Presented := { element := e }

theorem flatMap_targets_numberAll (start : Nat) (ts : List Node) :
    (Tree.numberAll start (Tree.mapAll present ts)).flatMap Tree.targets =
      Tree.numberAll start (Tree.mapAll present ts) := by
  induction ts generalizing start with
  | nil => rfl
  | cons t ts ih =>
    rw [Tree.mapAll, Tree.numberAll, List.flatMap_cons, ih,
      Tree.targets_eq_self (by rw [Tree.label_number_map]; rfl)]
    rfl

theorem unfold_number (n : Node) (start : Nat) :
    ((n.map present).number start).unfold = (n.number start).map Prod.fst := by
  induction n using Tree.induction generalizing start with
  | node e ts ih =>
    have hall : (Tree.numberAll (start + 1) (Tree.mapAll present ts)).map Tree.unfold =
        Tree.mapAll Prod.fst (Tree.numberAll (start + 1) ts) := by
      generalize start + 1 = first
      induction ts generalizing first with
      | nil => rfl
      | cons t ts ihs =>
        obtain ⟨ht, hts⟩ := List.forall_mem_cons.mp ih
        rw [Tree.mapAll, Tree.numberAll, List.map_cons, ht, ihs hts, Tree.size_map, Tree.numberAll,
          Tree.mapAll]
    rw [Tree.unfold_eq, Tree.map, Tree.number, Tree.linkedChildren, Tree.children,
      flatMap_targets_numberAll, hall, Tree.number, Tree.map]
    rfl

variable {p : Tree Presented}

theorem nodes_root : (ofTree p).nodes[0]? = some (p.number 0) := by
  change (p.number 0).subtrees.toArray[0]? = _
  rw [List.getElem?_toArray, Tree.subtrees_eq, List.getElem?_cons_zero]

theorem tree?_root : (ofTree p).tree? 0 = some (p.number 0).unfold := by
  rw [tree?, nodes_root, Option.map_some]

theorem targets_of_root (h : p.label.targets = [[]]) : (ofTree p).targets 0 = [0] := by
  have hself : (p.number 0).label.2.targets = [[]] := by
    cases p
    exact h
  rw [targets, nodes_root]
  dsimp only
  rw [Tree.targets_eq_self hself]
  cases p
  rfl

/-- What is searched is the subject as it stands. -/
theorem tree?_ofNode (n : Node) : (ofNode n).tree? 0 = some n.places :=
  tree?_root.trans (congrArg some (unfold_number n 0))

theorem targets_ofNode (n : Node) : (ofNode n).targets 0 = [0] := by
  refine targets_of_root ?_
  cases n
  rfl

end Subject

namespace Matcher

variable (m : Matcher) (q : Query)

theorem items_search_of_root {p : Tree Presented} (h : p.label.targets = [[]]) :
    (m.search q (.ofTree p)).items =
      (((m.scene (.ofTree p) (.ofTree (p.number 0).unfold)).results q
        (.initial (.ofTree (p.number 0).unfold))).map State.bindings).eraseDups := by
  simp [items_search, Subject.targets_of_root h, Subject.tree?_root]

theorem items_search_ofNode (n : Node) :
    (m.search q (.ofNode n)).items =
      (((m.scene (.ofNode n) (.ofTree n.places)).results q (.initial (.ofTree n.places))).map
        State.bindings).eraseDups := by
  simp [items_search, Subject.targets_ofNode, Subject.tree?_ofNode]

end Matcher

end TreeQuery
