import Mathlib.Data.List.Sort
import TreeQuery.LinkedTree
import TreeQuery.Proofs.Preorder

/-! The linked tree of a tree, read off its subtrees in pre-order: an id is the place of a subtree,
its children are the places of that subtree's children, and each child knows its parent's ancestors
and path and what it adds to them. -/

namespace TreeQuery

namespace LinkedTree

theorem size_layOut (links : Array Link) (pending : List Pending) :
    (layOut links pending).size = links.size + Pending.totalSize pending := by
  fun_induction layOut links pending with
  | case1 links => rfl
  | case2 links p rest waiting ih =>
    rw [ih, Array.size_push]
    simp only [waiting, Pending.totalSize, List.map_append, Pending.map_tree_below, List.map_cons,
      Tree.sizes_cons]
    omega

theorem getElem?_layOut_of_lt {links : Array Link} {id : Nat} (h : id < links.size)
    (pending : List Pending) : (layOut links pending)[id]? = links[id]? := by
  fun_induction layOut links pending with
  | case1 links => rfl
  | case2 links p rest waiting ih =>
    rw [ih (by rw [Array.size_push]; omega), Array.getElem?_push_lt h]
    simp [h]

/-- What waits is laid out when all before it has been, with all that is below that. -/
theorem getElem?_layOut_take (links : Array Link) (pending : List Pending) :
    ∀ {i : Nat} {q : Pending}, pending[i]? = some q →
      (layOut links pending)[links.size + Tree.sizes ((pending.map Pending.tree).take i)]? =
        some q.link := by
  fun_induction layOut links pending with
  | case1 links =>
    intro i q h
    simp at h
  | case2 links p rest waiting =>
    rename_i ih
    intro i q h
    cases i with
    | zero =>
      obtain rfl : p = q := by simpa using h
      rw [List.take_zero, Tree.sizes, Nat.add_zero,
        getElem?_layOut_of_lt (by rw [Array.size_push]; omega), Array.getElem?_push_size]
    | succ i =>
      have hlen : (p.below links.size).length = p.tree.children.length := by simp [Pending.below]
      have hq : waiting[(p.below links.size).length + i]? = some q := by
        rw [List.getElem?_append_right (by omega), Nat.add_sub_cancel_left]
        simpa using h
      have hh := ih hq
      rw [List.map_append, Pending.map_tree_below, hlen, List.take_length_add_append,
        Tree.sizes_append, Array.size_push] at hh
      rw [List.map_cons, List.take_succ_cons, Tree.sizes, Tree.size_eq, ← hh]
      congr 1
      omega

theorem getElem?_layOut_child (links : Array Link) (pending : List Pending) :
    ∀ {k i : Nat} {u v : Tree Nat}, (Tree.subtreesOf (pending.map Pending.tree))[k]? = some u →
      u.children[i]? = some v →
      ∃ l, (layOut links pending)[links.size + k]? = some l ∧
        (layOut links pending)[links.size + k + 1 + Tree.sizes (u.children.take i)]? =
          some ⟨v.label, (links.size + k) :: l.ancestors, l.path.push i⟩ := by
  fun_induction layOut links pending with
  | case1 links =>
    intro k i u v hu
    simp [Tree.subtreesOf] at hu
  | case2 links p rest waiting =>
    rename_i ih
    intro k i u v hu hv
    rw [List.map_cons, Tree.subtreesOf_cons] at hu
    cases k with
    | zero =>
      obtain rfl : p.tree = u := by simpa using hu
      have hlt : i < p.tree.children.length := (List.getElem?_eq_some_iff.mp hv).1
      have hchild : waiting[i]? = some ⟨v, links.size :: p.ancestors, p.path.push i⟩ := by
        rw [List.getElem?_append_left (by simpa [Pending.below] using hlt)]
        simp [Pending.below, hv]
      refine ⟨p.link, ?_, ?_⟩
      · rw [Nat.add_zero, getElem?_layOut_of_lt (by rw [Array.size_push]; omega),
          Array.getElem?_push_size]
      · have hh := getElem?_layOut_take (links.push p.link) waiting hchild
        rw [List.map_append, Pending.map_tree_below, List.take_append_of_le_length (by omega),
          Array.size_push] at hh
        exact hh
    | succ k =>
      rw [List.getElem?_cons_succ] at hu
      have hh := ih (by simpa [waiting, Pending.map_tree_below] using hu) hv
      rw [Array.size_push] at hh
      simpa only [Nat.add_assoc, Nat.add_comm 1] using hh

/-- The ids of the links whose parent is `p`, in their order. -/
def idsBelow (links : List (Link × Nat)) (p : Nat) : List Nat :=
  (links.filter fun entry => entry.1.ancestors.head? = some p).map Prod.snd

/-- A step adds the id of a link to the row of its parent, if it has one. -/
theorem getElem?_foldl_push {p : Nat} (step : Array (Array Nat) → Link × Nat → Array (Array Nat))
    (hnil : ∀ table l id, l.ancestors = [] → step table (l, id) = table)
    (hcons : ∀ table l id parent up, l.ancestors = parent :: up →
      step table (l, id) = table.modify parent (·.push id))
    (entries : List (Link × Nat)) (table : Array (Array Nat)) :
    (entries.foldl step table)[p]? = table[p]?.map (· ++ (idsBelow entries p).toArray) := by
  induction entries generalizing table with
  | nil => simp [idsBelow]
  | cons entry entries ih =>
    obtain ⟨l, id⟩ := entry
    rw [List.foldl_cons, ih]
    cases ha : l.ancestors with
    | nil => simp [idsBelow, ha, hnil table l id ha]
    | cons parent up =>
      rw [hcons table l id parent up ha]
      by_cases hp : parent = p
      · subst hp
        cases ht : table[parent]? <;> simp [idsBelow, ha, Array.getElem?_modify, ht]
      · simp [idsBelow, ha, Array.getElem?_modify, hp]

theorem getElem?_childTable (links : Array Link) (p : Nat) :
    (childTable links)[p]? =
      if p < links.size then some (idsBelow links.toList.zipIdx p).toArray else none := by
  rw [childTable, getElem?_foldl_push]
  · by_cases h : p < links.size <;> simp [h]
  · intro table l id h
    simp only [h]
  · intro table l id parent up h
    simp only [h]

theorem pairwise_idsBelow (links : Array Link) (p : Nat) :
    (idsBelow links.toList.zipIdx p).Pairwise (· < ·) := by
  have hsub : (idsBelow links.toList.zipIdx p).Sublist (links.toList.zipIdx.map Prod.snd) :=
    List.filter_sublist.map _
  rw [List.zipIdx_map_snd] at hsub
  exact List.Pairwise.sublist hsub List.pairwise_lt_range'

theorem mem_idsBelow {links : Array Link} {p id : Nat} :
    id ∈ idsBelow links.toList.zipIdx p ↔
      ∃ l, links[id]? = some l ∧ l.ancestors.head? = some p := by
  simp [idsBelow, List.mem_zipIdx_iff_getElem?]

section OfTree

variable {t : Tree Nat}

theorem size_ofTree : (ofTree t).size = t.size := by
  simp [size, ofTree, size_layOut, Pending.totalSize, Tree.sizes]

theorem node_ofTree {id : Nat} {u : Tree Nat} (h : t.subtrees[id]? = some u) :
    (ofTree t).node id = u.label := by
  have hh := congrArg (·[id]?) (nodes_ofTree t)
  simp only [← Tree.map_label_subtrees, List.getElem?_map, h, Array.getElem?_toList] at hh
  rw [node, hh]
  rfl

theorem link_ofTree_child {p i : Nat} {u v : Tree Nat} (hu : t.subtrees[p]? = some u)
    (hv : u.children[i]? = some v) :
    (ofTree t).links[p + 1 + Tree.sizes (u.children.take i)]? =
      some ⟨v.label, p :: (ofTree t).ancestors p, ((ofTree t).path p).push i⟩ := by
  obtain ⟨l, hl, hchild⟩ := getElem?_layOut_child #[] [⟨t, [], #[]⟩]
    (by simpa [Tree.subtreesOf_singleton] using hu) hv
  simp only [Array.size_empty, Nat.zero_add] at hl hchild
  have hlink : (ofTree t).links[p]? = some l := hl
  simp only [ancestors, path, hlink, Option.map_some, Option.getD_some]
  exact hchild

theorem link_ofTree_root : (ofTree t).links[0]? = some ⟨t.label, [], #[]⟩ :=
  getElem?_layOut_take #[] [⟨t, [], #[]⟩] (i := 0) rfl

theorem lt_size_of_subtrees {id : Nat} {u : Tree Nat} (h : t.subtrees[id]? = some u) :
    id < t.size := by
  rw [← Tree.length_subtrees]
  exact (List.getElem?_eq_some_iff.mp h).1

theorem toList_childrenOf (p : Nat) :
    ((ofTree t).childrenOf p).toList =
      if p < t.size then idsBelow (ofTree t).links.toList.zipIdx p else [] := by
  have hsize : (ofTree t).links.size = t.size := size_ofTree
  rw [childrenOf, show (ofTree t).children = childTable (ofTree t).links from rfl,
    getElem?_childTable, hsize]
  split <;> rfl

theorem getElem?_starts_eq_some {first i id : Nat} {ts : List (Tree Nat)} :
    (Tree.starts first ts)[i]? = some id ↔
      ∃ v, ts[i]? = some v ∧ first + Tree.sizes (ts.take i) = id := by
  rw [Tree.getElem?_starts, Option.map_eq_some_iff]

/-- The ids of the children of a subtree are the places of its children. -/
theorem childrenOf_ofTree {p : Nat} {u : Tree Nat} (h : t.subtrees[p]? = some u) :
    ((ofTree t).childrenOf p).toList = Tree.starts (p + 1) u.children := by
  rw [toList_childrenOf, if_pos (lt_size_of_subtrees h)]
  refine (pairwise_idsBelow (ofTree t).links p).eq_of_mem_iff
    (Tree.pairwise_starts (p + 1) u.children) fun id => ?_
  rw [mem_idsBelow]
  constructor
  · rintro ⟨l, hl, hparent⟩
    have hpos : 0 < id := by
      rcases Nat.eq_zero_or_pos id with rfl | hpos
      · rw [link_ofTree_root, Option.some.injEq] at hl
        simp [← hl] at hparent
      · exact hpos
    have hlt : id < t.size := by
      rw [← size_ofTree]
      exact (Array.getElem?_eq_some_iff.mp hl).1
    obtain ⟨p', u', hu', hid⟩ := Tree.exists_parent hlt hpos
    obtain ⟨i, hi⟩ := List.mem_iff_getElem?.mp hid
    obtain ⟨v, hv, rfl⟩ := getElem?_starts_eq_some.mp hi
    rw [link_ofTree_child hu' hv, Option.some.injEq] at hl
    obtain rfl : p' = p := by simpa [← hl] using hparent
    obtain rfl : u' = u := Option.some.inj (hu'.symm.trans h)
    exact hid
  · intro hid
    obtain ⟨i, hi⟩ := List.mem_iff_getElem?.mp hid
    obtain ⟨v, hv, rfl⟩ := getElem?_starts_eq_some.mp hi
    exact ⟨_, link_ofTree_child h hv, rfl⟩

theorem getElem?_childrenOf_eq_some {p i id : Nat} :
    ((ofTree t).childrenOf p)[i]? = some id ↔
      ∃ u v, t.subtrees[p]? = some u ∧ u.children[i]? = some v ∧
        p + 1 + Tree.sizes (u.children.take i) = id := by
  rw [← Array.getElem?_toList]
  cases h : t.subtrees[p]? with
  | none =>
    have hp : ¬ p < t.size := by
      rw [← Tree.length_subtrees]
      exact Nat.not_lt.mpr (List.getElem?_eq_none_iff.mp h)
    simp [toList_childrenOf, hp]
  | some u =>
    rw [childrenOf_ofTree h, getElem?_starts_eq_some]
    simp

theorem exists_childrenOf {id : Nat} (hlt : id < t.size) (hpos : 0 < id) :
    ∃ p i : Nat, ((ofTree t).childrenOf p)[i]? = some id := by
  obtain ⟨p, u, hu, hid⟩ := Tree.exists_parent hlt hpos
  obtain ⟨i, hi⟩ := List.mem_iff_getElem?.mp hid
  refine ⟨p, i, ?_⟩
  rwa [← Array.getElem?_toList, childrenOf_ofTree hu]

theorem ancestors_child {p i id : Nat} (h : ((ofTree t).childrenOf p)[i]? = some id) :
    (ofTree t).ancestors id = p :: (ofTree t).ancestors p := by
  obtain ⟨u, v, hu, hv, rfl⟩ := getElem?_childrenOf_eq_some.mp h
  rw [ancestors, link_ofTree_child hu hv]
  rfl

theorem path_child {p i id : Nat} (h : ((ofTree t).childrenOf p)[i]? = some id) :
    (ofTree t).path id = ((ofTree t).path p).push i := by
  obtain ⟨u, v, hu, hv, rfl⟩ := getElem?_childrenOf_eq_some.mp h
  rw [path, link_ofTree_child hu hv]
  rfl

/-- An id without a parent is the root's or none at all. -/
theorem ancestors_eq_nil {id : Nat} (h : id = 0 ∨ t.size ≤ id) : (ofTree t).ancestors id = [] := by
  rcases h with rfl | h
  · rw [ancestors, link_ofTree_root]
    rfl
  · rw [← size_ofTree] at h
    rw [ancestors, Array.getElem?_eq_none h]
    rfl

end OfTree

end LinkedTree

end TreeQuery
