import TreeQuery.Proofs.Layout

/-! Moving through a linked tree. Every move out of a node lands past its subtree, and no move made
inside a node leaves it. -/

namespace TreeQuery

namespace LinkedTree

variable {t : Tree Nat}

theorem parent?_eq_some_iff {id p : Nat} :
    (ofTree t).parent? id = some p ↔ ∃ i : Nat, ((ofTree t).childrenOf p)[i]? = some id := by
  constructor
  · intro h
    by_cases hid : id = 0 ∨ t.size ≤ id
    · simp [parent?, ancestors_eq_nil hid] at h
    · have hlt : id < t.size := by omega
      obtain ⟨q, i, hi⟩ := exists_childrenOf hlt (by omega)
      rw [parent?, ancestors_child hi, List.head?_cons, Option.some.injEq] at h
      exact ⟨i, h ▸ hi⟩
  · rintro ⟨i, hi⟩
    rw [parent?, ancestors_child hi, List.head?_cons]

theorem ancestors_of_parent? {id p : Nat} (h : (ofTree t).parent? id = some p) :
    (ofTree t).ancestors id = p :: (ofTree t).ancestors p := by
  obtain ⟨i, hi⟩ := parent?_eq_some_iff.mp h
  exact ancestors_child hi

theorem ancestors_of_parent?_eq_none {id : Nat} (h : (ofTree t).parent? id = none) :
    (ofTree t).ancestors id = [] := List.head?_eq_none_iff.mp h

theorem lt_size_of_mem_ancestors {id a : Nat} (h : a ∈ (ofTree t).ancestors id) : id < t.size := by
  refine Nat.lt_of_not_le fun hle => ?_
  rw [ancestors_eq_nil (.inr hle)] at h
  simp at h

theorem stop_of_subtrees {id : Nat} {u : Tree Nat} (h : t.subtrees[id]? = some u) :
    t.stop id = id + u.size := by
  simp [Tree.stop, h]

theorem stop_child {p i id : Nat} (h : ((ofTree t).childrenOf p)[i]? = some id) :
    p < id ∧ id < t.stop id ∧ t.stop id ≤ t.stop p := by
  obtain ⟨u, v, hu, hv, rfl⟩ := getElem?_childrenOf_eq_some.mp h
  rw [stop_of_subtrees hu, stop_of_subtrees (Tree.getElem?_subtrees_child hu hv)]
  have := Tree.sizes_take_succ hv
  have := Tree.sizes_take_le u.children (i + 1)
  have := Tree.size_eq u
  have := Tree.size_pos v
  omega

theorem stop_sibling {p i id next : Nat} (h : ((ofTree t).childrenOf p)[i]? = some id)
    (hnext : ((ofTree t).childrenOf p)[i + 1]? = some next) : next = t.stop id := by
  obtain ⟨u, v, hu, hv, rfl⟩ := getElem?_childrenOf_eq_some.mp h
  obtain ⟨u', w, hu', hw, rfl⟩ := getElem?_childrenOf_eq_some.mp hnext
  obtain rfl : u = u' := Option.some.inj (hu.symm.trans hu')
  rw [stop_of_subtrees (Tree.getElem?_subtrees_child hu hv), Tree.sizes_take_succ hv]
  omega

theorem parent?_lt {id p : Nat} (h : (ofTree t).parent? id = some p) : p < id := by
  obtain ⟨i, hi⟩ := parent?_eq_some_iff.mp h
  exact (stop_child hi).1

/-- Induction from the root down, or from an id that is none. -/
@[elab_as_elim]
theorem parent_induction {motive : Nat → Prop} (t : Tree Nat)
    (root : ∀ id, (ofTree t).parent? id = none → motive id)
    (child : ∀ id p, (ofTree t).parent? id = some p → motive p → motive id) (id : Nat) :
    motive id := by
  induction id using Nat.strongRecOn with
  | ind id ih =>
    cases h : (ofTree t).parent? id with
    | none => exact root id h
    | some p => exact child id p h (ih p (parent?_lt h))

theorem exists_parent?_of_mem_ancestors {id a : Nat} (h : a ∈ (ofTree t).ancestors id) :
    ∃ p, (ofTree t).parent? id = some p := by
  cases hp : (ofTree t).parent? id with
  | none => simp [ancestors_of_parent?_eq_none hp] at h
  | some p => exact ⟨p, rfl⟩

theorem mem_ancestors_iff {id p a : Nat} (hp : (ofTree t).parent? id = some p) :
    a ∈ (ofTree t).ancestors id ↔ a = p ∨ a ∈ (ofTree t).ancestors p := by
  rw [ancestors_of_parent? hp, List.mem_cons]

theorem parent?_mem_ancestors {id p : Nat} (hp : (ofTree t).parent? id = some p) :
    p ∈ (ofTree t).ancestors id :=
  (mem_ancestors_iff hp).mpr (.inl rfl)

theorem stop_ancestor {id a : Nat} (h : a ∈ (ofTree t).ancestors id) :
    a < id ∧ t.stop id ≤ t.stop a := by
  induction id using parent_induction t with
  | root id hp => simp [ancestors_of_parent?_eq_none hp] at h
  | child id p hp ih =>
    obtain ⟨i, hi⟩ := parent?_eq_some_iff.mp hp
    have hid := stop_child hi
    rcases (mem_ancestors_iff hp).mp h with rfl | ha
    · exact ⟨hid.1, hid.2.2⟩
    · have := ih ha
      omega

theorem mem_ancestors_trans {id a b : Nat} (ha : a ∈ (ofTree t).ancestors b)
    (hb : b ∈ (ofTree t).ancestors id) : a ∈ (ofTree t).ancestors id := by
  induction id using parent_induction t with
  | root id hp => simp [ancestors_of_parent?_eq_none hp] at hb
  | child id p hp ih =>
    refine (mem_ancestors_iff hp).mpr (.inr ?_)
    rcases (mem_ancestors_iff hp).mp hb with rfl | hbp
    · exact ha
    · exact ih hbp

theorem firstChild?_spec {id c : Nat} (h : (ofTree t).firstChild? id = some c) :
    (ofTree t).parent? c = some id ∧ c = id + 1 := by
  refine ⟨parent?_eq_some_iff.mpr ⟨0, h⟩, ?_⟩
  obtain ⟨u, v, hu, hv, rfl⟩ := getElem?_childrenOf_eq_some.mp h
  simp [Tree.sizes]

theorem directNeighbor?_child {p i id : Nat} (h : ((ofTree t).childrenOf p)[i]? = some id) :
    (ofTree t).directNeighbor? id = ((ofTree t).childrenOf p)[i + 1]? := by
  simp [directNeighbor?, parent?, ancestors_child h, path_child h]

theorem directNeighbor?_of_parent?_eq_none {id : Nat} (h : (ofTree t).parent? id = none) :
    (ofTree t).directNeighbor? id = none := by
  simp [directNeighbor?, h]

theorem directNeighbor?_spec {id next : Nat} (h : (ofTree t).directNeighbor? id = some next) :
    (ofTree t).parent? next = (ofTree t).parent? id ∧ next = t.stop id := by
  cases hp : (ofTree t).parent? id with
  | none => simp [directNeighbor?_of_parent?_eq_none hp] at h
  | some p =>
    obtain ⟨i, hi⟩ := parent?_eq_some_iff.mp hp
    rw [directNeighbor?_child hi] at h
    exact ⟨parent?_eq_some_iff.mpr ⟨i + 1, h⟩, stop_sibling hi h⟩

/-- One step of the climb. -/
theorem neighborWithin?_eq (id a : Nat) :
    (ofTree t).neighborWithin? id a =
      if id = a then none
      else ((ofTree t).directNeighbor? id).or
        (((ofTree t).parent? id).bind ((ofTree t).neighborWithin? · a)) := by
  rw [neighborWithin?, firstNeighbor?]
  split
  · rfl
  · cases hn : (ofTree t).directNeighbor? id with
    | some next => rfl
    | none =>
      cases hp : (ofTree t).parent? id with
      | none => rw [ancestors_of_parent?_eq_none hp]; rfl
      | some p => rw [ancestors_of_parent? hp]; rfl

theorem neighborWithin?_spec {id a next : Nat} (ha : a ∈ (ofTree t).ancestors id)
    (h : (ofTree t).neighborWithin? id a = some next) :
    a ∈ (ofTree t).ancestors next ∧ t.stop id ≤ next := by
  induction id using parent_induction t with
  | root id hp => simp [ancestors_of_parent?_eq_none hp] at ha
  | child id p hp ih =>
    have hap := (mem_ancestors_iff hp).mp ha
    rw [neighborWithin?_eq, if_neg (fun he => by have := (stop_ancestor ha).1; omega)] at h
    cases hn : (ofTree t).directNeighbor? id with
    | some next' =>
      obtain rfl : next' = next := by simpa [hn] using h
      obtain ⟨hparent, hstop⟩ := directNeighbor?_spec hn
      exact ⟨(mem_ancestors_iff (hparent.trans hp)).mpr hap, Nat.le_of_eq hstop.symm⟩
    | none =>
      rw [hn, hp, Option.none_or, Option.bind_some] at h
      rcases hap with rfl | hap
      · simp [neighborWithin?_eq] at h
      · obtain ⟨hnext, hle⟩ := ih hap h
        obtain ⟨i, hi⟩ := parent?_eq_some_iff.mp hp
        have := stop_child hi
        exact ⟨hnext, by omega⟩

theorem lt_stop {id a : Nat} (h : a ∈ (ofTree t).ancestors id) : id < t.stop id := by
  obtain ⟨p, hp⟩ := exists_parent?_of_mem_ancestors h
  obtain ⟨i, hi⟩ := parent?_eq_some_iff.mp hp
  exact (stop_child hi).2.1

theorem nextWithin?_spec {id a next : Nat} (ha : a ∈ (ofTree t).ancestors id)
    (h : (ofTree t).nextWithin? id a = some next) :
    a ∈ (ofTree t).ancestors next ∧ id < next := by
  rw [nextWithin?] at h
  cases hc : (ofTree t).firstChild? id with
  | some c =>
    obtain rfl : c = next := by simpa [hc] using h
    obtain ⟨hparent, hsucc⟩ := firstChild?_spec hc
    exact ⟨(mem_ancestors_iff hparent).mpr (.inr ha), by omega⟩
  | none =>
    obtain ⟨hnext, hle⟩ := neighborWithin?_spec ha (by simpa [hc] using h)
    have := lt_stop ha
    exact ⟨hnext, by omega⟩

/-- Above any id inside `a` there is a child of `a` whose subtree holds that id. -/
theorem lastBefore?_spec {id a z : Nat}
    (h : lastBefore? a id ((ofTree t).ancestors id) = some z) :
    (ofTree t).parent? z = some a ∧ t.stop id ≤ t.stop z := by
  induction id using parent_induction t with
  | root id hp => simp [ancestors_of_parent?_eq_none hp, lastBefore?] at h
  | child id p hp ih =>
    rw [ancestors_of_parent? hp, lastBefore?] at h
    by_cases hpa : p = a
    · obtain rfl : id = z := by simpa [hpa] using h
      exact ⟨hpa ▸ hp, Nat.le_refl _⟩
    · obtain ⟨hz, hle⟩ := ih (by simpa [hpa] using h)
      obtain ⟨i, hi⟩ := parent?_eq_some_iff.mp hp
      exact ⟨hz, Nat.le_trans (stop_child hi).2.2 hle⟩

theorem directChildOf?_spec {id a c : Nat} (ha : a ∈ (ofTree t).ancestors id)
    (h : (ofTree t).directChildOf? id a = some c) :
    (ofTree t).parent? c = some a ∧ id ≤ c := by
  rw [directChildOf?] at h
  split at h
  next hp =>
    obtain rfl : id = c := Option.some.inj h
    exact ⟨hp, Nat.le_refl _⟩
  next =>
    obtain ⟨z, hz, hn⟩ := Option.bind_eq_some_iff.mp h
    obtain ⟨hparent, hstop⟩ := directNeighbor?_spec hn
    obtain ⟨hz, hle⟩ := lastBefore?_spec hz
    have := lt_stop ha
    exact ⟨hparent.trans hz, by omega⟩

end LinkedTree

end TreeQuery
