import TreeQuery.Proofs.Preorder
import TreeQuery.Subject

/-! A subject's node carries its place as its number, so that the number of a node in the tree that
is searched leads back to the subtree below that node. -/

namespace TreeQuery

namespace Tree

variable {α : Type}

theorem mem_subtrees_trans {t u v : Tree α} (hv : v ∈ u.subtrees) (hu : u ∈ t.subtrees) :
    v ∈ t.subtrees := by
  obtain ⟨id, hid⟩ := List.mem_iff_getElem?.mp hu
  obtain ⟨k, hk⟩ := List.mem_iff_getElem?.mp hv
  have hlt : k < u.size := by
    rw [← length_subtrees]
    exact (List.getElem?_eq_some_iff.mp hk).1
  exact List.mem_iff_getElem?.mpr ⟨id + k, (getElem?_subtrees_add hid hlt).trans hk⟩

theorem self_mem_subtrees (t : Tree α) : t ∈ t.subtrees := by
  rw [subtrees_eq]
  exact List.mem_cons_self

theorem mem_subtreesOf {ts : List (Tree α)} {u : Tree α} :
    u ∈ subtreesOf ts ↔ ∃ t ∈ ts, u ∈ t.subtrees := by
  induction ts with
  | nil => simp [subtreesOf]
  | cons t ts ih => simp [subtreesOf, ih]

theorem mem_subtrees_of_mem_children {t u v : Tree α} (hv : v ∈ u.subtrees)
    (hu : u ∈ t.children) : v ∈ t.subtrees := by
  rw [subtrees_eq]
  exact List.mem_cons_of_mem _ (mem_subtreesOf.mpr ⟨u, hu, hv⟩)

theorem mem_subtrees_of_at? {t u : Tree α} {path : List Nat} (h : t.at? path = some u) :
    u ∈ t.subtrees := by
  induction path generalizing t with
  | nil =>
    obtain rfl : t = u := by simpa [at?] using h
    exact self_mem_subtrees t
  | cons i path ih =>
    obtain ⟨c, hc, hu⟩ := Option.bind_eq_some_iff.mp h
    exact mem_subtrees_of_mem_children (ih hu) (List.mem_of_getElem? hc)

theorem numberAll_append (start : Nat) (ts us : List (Tree α)) :
    numberAll start (ts ++ us) = numberAll start ts ++ numberAll (start + sizes ts) us := by
  induction ts generalizing start with
  | nil => rfl
  | cons t ts ih => simp [numberAll, sizes, ih, Nat.add_assoc]

theorem numbers_preorders (start : Nat) (ts : List (Tree α)) :
    (preorders (numberAll start ts)).map Prod.fst = List.range' start (sizes ts) := by
  induction ts using walk_induction generalizing start with
  | nil => rfl
  | cons t ts ih =>
    obtain ⟨a, us⟩ := t
    have hh := ih (start + 1)
    have hsize : start + (node a us).size = start + 1 + sizes us := by
      rw [size]
      omega
    rw [children, numberAll_append, preorders_append] at hh
    rw [numberAll, number, preorders, preorder, sizes_cons, children, hsize, List.cons_append,
      List.map_cons, hh, List.range'_succ]

/-- The numbers are the places in pre-order. -/
theorem label_of_subtrees_number {t : Tree α} {start id : Nat} {u : Tree (Nat × α)}
    (h : (t.number start).subtrees[id]? = some u) : u.label.1 = start + id := by
  have hnumbers : (t.number start).subtrees.map (·.label.1) = List.range' start (sizes [t]) := by
    rw [← numbers_preorders, ← map_label_subtreesOf, numberAll, numberAll, subtreesOf_singleton,
      List.map_map]
    rfl
  have hh : (List.range' start (sizes [t]))[id]? = some u.label.1 := by
    rw [← hnumbers, List.getElem?_map, h, Option.map_some]
  obtain ⟨hlt, he⟩ := List.getElem?_eq_some_iff.mp hh
  rw [← he, List.getElem_range', Nat.one_mul]

/-- A subtree of the tree that is searched is what is searched below a node of the subject. -/
theorem exists_of_mem_subtrees_unfold {t : Tree Numbered} {u : Tree Nat}
    (h : u ∈ t.unfold.subtrees) : ∃ v ∈ t.subtrees, v.unfold = u := by
  induction hn : t.size using Nat.strongRecOn generalizing t with
  | ind n ih =>
    rw [subtrees_eq, List.mem_cons] at h
    rcases h with rfl | h
    · exact ⟨t, self_mem_subtrees t, rfl⟩
    · rw [unfold_eq, children] at h
      obtain ⟨c', hc', hu⟩ := mem_subtreesOf.mp h
      obtain ⟨c, hc, rfl⟩ := List.mem_map.mp hc'
      obtain ⟨v, hv, rfl⟩ := ih c.size (hn ▸ size_lt_of_mem_linkedChildren hc) hu rfl
      obtain ⟨child, hchild, htarget⟩ := List.mem_flatMap.mp hc
      obtain ⟨path, _, hpath⟩ := List.mem_filterMap.mp htarget
      have hin := mem_subtrees_trans hv (mem_subtrees_of_at? hpath)
      exact ⟨v, mem_subtrees_of_mem_children hin hchild, rfl⟩

end Tree

namespace Subject

variable {p : Tree Presented}

theorem tree?_of_mem_subtrees {v : Tree Numbered} (h : v ∈ (p.number 0).subtrees) :
    (ofTree p).tree? v.label.1 = some v.unfold := by
  obtain ⟨id, hid⟩ := List.mem_iff_getElem?.mp h
  have hlabel := Tree.label_of_subtrees_number hid
  rw [Nat.zero_add] at hlabel
  simp [tree?, ofTree, hlabel, hid]

/-- The number at a place of the tree that is searched is that of the subtree there. -/
theorem tree?_of_subtrees {n c : Nat} {t u : Tree Nat} (h : (ofTree p).tree? n = some t)
    (hu : t.subtrees[c]? = some u) : (ofTree p).tree? u.label = some u := by
  obtain ⟨v, hv, rfl⟩ := Option.map_eq_some_iff.mp h
  have hmem : v ∈ (p.number 0).subtrees := by
    simp only [ofTree, List.getElem?_toArray] at hv
    exact List.mem_of_getElem? hv
  obtain ⟨w, hw, rfl⟩ := Tree.exists_of_mem_subtrees_unfold (List.mem_of_getElem? hu)
  have hlabel : w.unfold.label = w.label.1 := by
    rw [Tree.unfold_eq, Tree.label]
  rw [hlabel]
  exact tree?_of_mem_subtrees (Tree.mem_subtrees_trans hw hmem)

end Subject

end TreeQuery
