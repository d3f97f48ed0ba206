import TreeQuery.Proofs.Subtree

/-! Ids as positions. What lies below an id is the rest of its stretch, so every move is arithmetic
on the ends of stretches, and tree order is the order of ids. -/

namespace TreeQuery

namespace LinkedTree

variable {t : Tree Nat}

theorem stop_root : t.stop 0 = t.size := by
  rw [stop_of_subtrees (u := t) (by rw [Tree.subtrees_eq]; rfl), Nat.zero_add]

theorem stop_eq_self {id : Nat} (h : t.size ≤ id) : t.stop id = id := by
  rw [Tree.stop, List.getElem?_eq_none (by rwa [Tree.length_subtrees])]
  rfl

theorem lt_stop_self {id : Nat} (h : id < t.size) : id < t.stop id := by
  rw [← Tree.length_subtrees] at h
  rw [stop_of_subtrees (List.getElem?_eq_getElem h)]
  exact Nat.lt_add_of_pos_right (Tree.size_pos _)

theorem stop_le_size {id : Nat} (h : id < t.size) : t.stop id ≤ t.size := by
  rw [← Tree.length_subtrees] at h
  rw [stop_of_subtrees (List.getElem?_eq_getElem h)]
  exact add_size_le (List.getElem?_eq_getElem h)

theorem mem_ancestors_add {u : Tree Nat} {c k a : Nat} (hu : t.subtrees[c]? = some u)
    (h : a ∈ (ofTree u).ancestors k) : c + a ∈ (ofTree t).ancestors (c + k) := by
  induction k using parent_induction u with
  | root k hp => simp [ancestors_of_parent?_eq_none hp] at h
  | child k p hp ih =>
    refine (mem_ancestors_iff (parent?_add hu hp)).mpr ?_
    rcases (mem_ancestors_iff hp).mp h with rfl | h
    · exact .inl rfl
    · exact .inr (ih h)

theorem root_mem_ancestors {id : Nat} (hlt : id < t.size) (hpos : 0 < id) :
    0 ∈ (ofTree t).ancestors id := by
  induction id using parent_induction t with
  | root id hp =>
    obtain ⟨p, i, hi⟩ := exists_childrenOf hlt hpos
    simp [parent?_eq_some_iff.mpr ⟨i, hi⟩] at hp
  | child id p hp ih =>
    have hpid := parent?_lt hp
    rcases Nat.eq_zero_or_pos p with rfl | hp0
    · exact parent?_mem_ancestors hp
    · exact (mem_ancestors_iff hp).mpr (.inr (ih (by omega) hp0))

theorem mem_ancestors_iff_lt_stop {id a : Nat} :
    a ∈ (ofTree t).ancestors id ↔ a < id ∧ id < t.stop a := by
  constructor
  · intro h
    have := stop_ancestor h
    have := lt_stop h
    omega
  · rintro ⟨ha, hid⟩
    rcases Nat.lt_or_ge a t.size with hlt | hge
    · rw [← Tree.length_subtrees] at hlt
      have hu := List.getElem?_eq_getElem hlt
      rw [stop_of_subtrees hu] at hid
      have hroot : 0 ∈ (ofTree t.subtrees[a]).ancestors (id - a) :=
        root_mem_ancestors (by omega) (by omega)
      have hmem := mem_ancestors_add hu hroot
      rwa [Nat.add_zero, Nat.add_sub_cancel' (Nat.le_of_lt ha)] at hmem
    · rw [stop_eq_self hge] at hid
      omega

section Ends

/-- The subtree of a last child ends where that of its parent does. -/
theorem stop_eq_of_directNeighbor?_eq_none {id p : Nat} (hp : (ofTree t).parent? id = some p)
    (h : (ofTree t).directNeighbor? id = none) : t.stop id = t.stop p := by
  obtain ⟨i, hi⟩ := parent?_eq_some_iff.mp hp
  rw [directNeighbor?_child hi] at h
  obtain ⟨u, v, hu, hv, rfl⟩ := getElem?_childrenOf_eq_some.mp hi
  have hlast : u.children.take (i + 1) = u.children := by
    apply List.take_of_length_le
    rw [← Array.getElem?_toList, childrenOf_ofTree hu, Tree.getElem?_starts,
      Option.map_eq_none_iff] at h
    exact List.getElem?_eq_none_iff.mp h
  have hsize := Tree.sizes_take_succ hv
  rw [hlast] at hsize
  rw [stop_of_subtrees hu, stop_of_subtrees (Tree.getElem?_subtrees_child hu hv), Tree.size_eq u]
  omega

theorem stop_eq_of_firstChild?_eq_none {id : Nat} (hlt : id < t.size)
    (h : (ofTree t).firstChild? id = none) : t.stop id = id + 1 := by
  rw [← Tree.length_subtrees] at hlt
  have hu := List.getElem?_eq_getElem hlt
  rw [firstChild?, ← Array.getElem?_toList, childrenOf_ofTree hu, Tree.getElem?_starts,
    Option.map_eq_none_iff] at h
  have hnil : t.subtrees[id].children = [] := by simpa using h
  rw [stop_of_subtrees hu, Tree.size_eq, hnil, Tree.sizes]

theorem firstChild?_eq {id : Nat} (hlt : id < t.size) :
    (ofTree t).firstChild? id = if id + 1 < t.stop id then some (id + 1) else none := by
  cases h : (ofTree t).firstChild? id with
  | some c =>
    obtain ⟨hp, rfl⟩ := firstChild?_spec h
    rw [if_pos (mem_ancestors_iff_lt_stop.mp (parent?_mem_ancestors hp)).2]
  | none =>
    rw [stop_eq_of_firstChild?_eq_none hlt h, if_neg (Nat.lt_irrefl _)]

end Ends

section Moves

variable {id a : Nat} (ha : a ∈ (ofTree t).ancestors id)

include ha

/-- The climb ends right after the subtree it comes from, if that is still inside. -/
theorem neighborWithin?_of_mem_ancestors :
    (ofTree t).neighborWithin? id a =
      if t.stop id < t.stop a then some (t.stop id) else none := by
  induction id using parent_induction t with
  | root id hp => simp [ancestors_of_parent?_eq_none hp] at ha
  | child id p hp ih =>
    have hap := (mem_ancestors_iff hp).mp ha
    rw [neighborWithin?_eq, if_neg (fun he => by have := (stop_ancestor ha).1; omega)]
    cases hn : (ofTree t).directNeighbor? id with
    | some next =>
      obtain ⟨hparent, rfl⟩ := directNeighbor?_spec hn
      have hnext := (mem_ancestors_iff (hparent.trans hp)).mpr hap
      rw [if_pos (mem_ancestors_iff_lt_stop.mp hnext).2]
      rfl
    | none =>
      rw [hp, Option.none_or, Option.bind_some, stop_eq_of_directNeighbor?_eq_none hp hn]
      rcases hap with rfl | hap
      · rw [neighborWithin?_eq, if_pos rfl, if_neg (Nat.lt_irrefl _)]
      · exact ih hap

theorem nextWithin?_of_mem_ancestors :
    (ofTree t).nextWithin? id a = if id + 1 < t.stop a then some (id + 1) else none := by
  have hlt := lt_size_of_mem_ancestors ha
  have hstop := (stop_ancestor ha).2
  rw [nextWithin?, neighborWithin?_of_mem_ancestors ha]
  cases h : (ofTree t).firstChild? id with
  | some c =>
    obtain ⟨hp, rfl⟩ := firstChild?_spec h
    have hin := (mem_ancestors_iff_lt_stop.mp (parent?_mem_ancestors hp)).2
    rw [if_pos (Nat.lt_of_lt_of_le hin hstop)]
  | none => rw [stop_eq_of_firstChild?_eq_none hlt h]

end Moves

section Children

theorem pairwise_childrenOf (a : Nat) : ((ofTree t).childrenOf a).toList.Pairwise (· < ·) := by
  rw [toList_childrenOf]
  split
  · exact pairwise_idsBelow _ _
  · exact .nil

theorem length_childrenOf_le (a : Nat) : ((ofTree t).childrenOf a).toList.length ≤ t.size := by
  rw [toList_childrenOf]
  split
  · rw [idsBelow, List.length_map, ← size_ofTree, size]
    exact Nat.le_trans (List.length_filter_le _ _) (by simp)
  · exact Nat.zero_le _

theorem mem_childrenOf_iff {id a : Nat} :
    id ∈ ((ofTree t).childrenOf a).toList ↔ (ofTree t).parent? id = some a := by
  rw [parent?_eq_some_iff, List.mem_iff_getElem?]
  simp only [Array.getElem?_toList]

theorem lt_of_childrenOf {a i j x y : Nat} (hx : ((ofTree t).childrenOf a)[i]? = some x)
    (hy : ((ofTree t).childrenOf a)[j]? = some y) (h : i < j) : x < y := by
  rw [← Array.getElem?_toList] at hx hy
  obtain ⟨hi, rfl⟩ := List.getElem?_eq_some_iff.mp hx
  obtain ⟨hj, rfl⟩ := List.getElem?_eq_some_iff.mp hy
  exact List.pairwise_iff_getElem.mp (pairwise_childrenOf a) i j hi hj h

/-- The child of `a` whose subtree an id inside `a` belongs to, on the way up from it. -/
theorem exists_lastBefore? {id a : Nat} (ha : a ∈ (ofTree t).ancestors id)
    (hp : (ofTree t).parent? id ≠ some a) :
    ∃ z, lastBefore? a id ((ofTree t).ancestors id) = some z ∧ z ∈ (ofTree t).ancestors id := by
  induction id using parent_induction t with
  | root id hnone => simp [ancestors_of_parent?_eq_none hnone] at ha
  | child id p hparent ih =>
    have hpa : p ≠ a := fun he => hp (he ▸ hparent)
    have ha' := ((mem_ancestors_iff hparent).mp ha).resolve_left (Ne.symm hpa)
    rw [ancestors_of_parent? hparent, lastBefore?, if_neg hpa]
    by_cases hpp : (ofTree t).parent? p = some a
    · refine ⟨p, ?_, List.mem_cons_self⟩
      rw [ancestors_of_parent? hpp, lastBefore?, if_pos rfl]
    · obtain ⟨z, hz, hmem⟩ := ih ha' hpp
      exact ⟨z, hz, List.mem_cons_of_mem _ hmem⟩

theorem filter_le_eq_drop {l : List Nat} {c i : Nat}
    (hbefore : ∀ k x, l[k]? = some x → k < i → x < c)
    (hafter : ∀ k x, l[k]? = some x → i ≤ k → c ≤ x) : l.filter (c ≤ ·) = l.drop i := by
  have htake : (l.take i).filter (c ≤ ·) = [] := by
    refine List.filter_eq_nil_iff.mpr fun x hx => ?_
    obtain ⟨k, hk⟩ := List.mem_iff_getElem?.mp hx
    rw [List.getElem?_take] at hk
    split at hk
    next hlt => simpa using hbefore k x hk hlt
    next => simp at hk
  have hdrop : (l.drop i).filter (c ≤ ·) = l.drop i := by
    refine List.filter_eq_self.mpr fun x hx => ?_
    obtain ⟨k, hk⟩ := List.mem_iff_getElem?.mp hx
    rw [List.getElem?_drop] at hk
    simpa using hafter (i + k) x hk (by omega)
  rw [← List.take_append_drop i l, List.filter_append, htake, hdrop, List.nil_append]
  simp

/-- A move to a child of `a` leads to the first that is not before the id. -/
theorem exists_directChildOf?_eq {id a : Nat} (ha : a ∈ (ofTree t).ancestors id) :
    ∃ i : Nat, (ofTree t).directChildOf? id a = ((ofTree t).childrenOf a)[i]? ∧
      ((ofTree t).childrenOf a).toList.filter (id ≤ ·) =
        ((ofTree t).childrenOf a).toList.drop i := by
  by_cases hp : (ofTree t).parent? id = some a
  · obtain ⟨i, hi⟩ := parent?_eq_some_iff.mp hp
    refine ⟨i, by rw [directChildOf?, if_pos hp, hi], filter_le_eq_drop ?_ ?_⟩
    · intro k x hx hk
      rw [Array.getElem?_toList] at hx
      exact lt_of_childrenOf hx hi hk
    · intro k x hx hk
      rw [Array.getElem?_toList] at hx
      rcases Nat.lt_or_eq_of_le hk with hlt | rfl
      · exact Nat.le_of_lt (lt_of_childrenOf hi hx hlt)
      · exact Nat.le_of_eq (Option.some.inj (hi.symm.trans hx))
  · obtain ⟨z, hz, hmem⟩ := exists_lastBefore? ha hp
    obtain ⟨hza, hstop⟩ := lastBefore?_spec hz
    have hzid := (stop_ancestor hmem).1
    have hid := lt_stop ha
    obtain ⟨i, hi⟩ := parent?_eq_some_iff.mp hza
    refine ⟨i + 1, ?_, filter_le_eq_drop ?_ ?_⟩
    · rw [directChildOf?, if_neg hp, hz, Option.bind_some, directNeighbor?_child hi]
    · intro k x hx hk
      rw [Array.getElem?_toList] at hx
      rcases Nat.lt_or_eq_of_le (Nat.le_of_lt_succ hk) with hlt | rfl
      · exact Nat.lt_trans (lt_of_childrenOf hx hi hlt) hzid
      · obtain rfl := Option.some.inj (hi.symm.trans hx)
        exact hzid
    · intro k x hx hk
      rw [Array.getElem?_toList] at hx
      obtain ⟨w, hw⟩ : ∃ w, ((ofTree t).childrenOf a)[i + 1]? = some w := by
        have hlt := (Array.getElem?_eq_some_iff.mp hx).1
        exact ⟨_, Array.getElem?_eq_getElem (by omega)⟩
      have hwz := stop_sibling hi hw
      rcases Nat.lt_or_eq_of_le hk with hlt | rfl
      · have := lt_of_childrenOf hw hx hlt
        omega
      · obtain rfl := Option.some.inj (hw.symm.trans hx)
        omega

end Children

section Order

theorem compare_append_right {l m : List Nat} (n : List Nat) (h : Ord.compare l m = .lt) :
    Ord.compare l (m ++ n) = .lt := by
  induction l generalizing m with
  | nil =>
    cases m with
    | nil => simp at h
    | cons y m => rfl
  | cons x l ih =>
    cases m with
    | nil => simp at h
    | cons y m =>
      rw [List.cons_append, List.compare_cons_cons, Ordering.then_eq_lt] at *
      exact h.imp_right fun h => ⟨h.1, ih h.2⟩

/-- The path of an id inside `a` goes on from that of `a`, by a child not after the id. -/
theorem exists_path_of_mem_ancestors {id a : Nat} (ha : a ∈ (ofTree t).ancestors id) :
    ∃ i z rest, ((ofTree t).childrenOf a)[i]? = some z ∧ z ≤ id ∧
      ((ofTree t).path id).toList = ((ofTree t).path a).toList ++ i :: rest := by
  induction id using parent_induction t with
  | root id hp => simp [ancestors_of_parent?_eq_none hp] at ha
  | child id p hp ih =>
    obtain ⟨k, hk⟩ := parent?_eq_some_iff.mp hp
    have hpath := path_child hk
    rcases (mem_ancestors_iff hp).mp ha with rfl | ha
    · exact ⟨k, id, [], hk, Nat.le_refl _, by rw [hpath, Array.toList_push]⟩
    · obtain ⟨i, z, rest, hz, hle, hrest⟩ := ih ha
      have hlt := parent?_lt hp
      exact ⟨i, z, rest ++ [k], hz, by omega, by simp [hpath, hrest]⟩

theorem compare_path_of_lt {a b : Nat} (h : a < b) (hb : b < t.size) :
    Ord.compare ((ofTree t).path a).toList ((ofTree t).path b).toList = .lt := by
  induction b using parent_induction t with
  | root b hp =>
    obtain ⟨p, i, hi⟩ := exists_childrenOf hb (by omega)
    simp [parent?_eq_some_iff.mpr ⟨i, hi⟩] at hp
  | child b p hp ih =>
    obtain ⟨j, hj⟩ := parent?_eq_some_iff.mp hp
    have hpb := stop_child hj
    rw [path_child hj, Array.toList_push]
    rcases Nat.lt_trichotomy a p with hlt | rfl | hgt
    · exact compare_append_right _ (ih hlt (by omega))
    · have := compare_append ((ofTree t).path a).toList [] [j]
      rw [List.append_nil] at this
      exact this
    · have hin : a < t.stop p := by omega
      obtain ⟨i, z, rest, hz, hle, hpath⟩ :=
        exists_path_of_mem_ancestors (mem_ancestors_iff_lt_stop.mpr ⟨hgt, hin⟩)
      have hij : i < j := by
        refine Nat.lt_of_not_le fun hji => ?_
        rcases Nat.lt_or_eq_of_le hji with hlt | rfl
        · have := lt_of_childrenOf hj hz hlt
          omega
        · have := Option.some.inj (hj.symm.trans hz)
          omega
      rw [hpath, compare_append, List.compare_cons_cons, Nat.compare_eq_lt.mpr hij]
      rfl

/-- Tree order is the order of ids. -/
theorem compare_eq {a b : Nat} (ha : a < t.size) (hb : b < t.size) :
    (ofTree t).compare a b = Ord.compare a b := by
  rw [compare]
  rcases Nat.lt_trichotomy a b with hlt | rfl | hgt
  · rw [if_neg (by omega), compare_path_of_lt hlt hb, Nat.compare_eq_lt.mpr hlt]
  · simp
  · rw [if_neg (by omega), Std.OrientedOrd.eq_swap, compare_path_of_lt hgt ha,
      Nat.compare_eq_gt.mpr hgt]
    rfl

end Order

end LinkedTree

end TreeQuery
