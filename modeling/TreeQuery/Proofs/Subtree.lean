import TreeQuery.Proofs.Navigation

/-! The linked tree of a subtree is a stretch of the linked tree of the whole: each id lies at the
place of the subtree plus itself, and every move inside the subtree is the same move. -/

namespace TreeQuery

namespace LinkedTree

variable {t u : Tree Nat} {c : Nat}

section Links

variable (hu : t.subtrees[c]? = some u)

include hu

theorem subtrees_add {k : Nat} (hk : k < u.size) :
    ∃ v, u.subtrees[k]? = some v ∧ t.subtrees[c + k]? = some v := by
  have hv := List.getElem?_eq_getElem (l := u.subtrees) (i := k) (by rwa [Tree.length_subtrees])
  exact ⟨_, hv, (Tree.getElem?_subtrees_add hu hk).trans hv⟩

theorem add_size_le : c + u.size ≤ t.size := by
  have hpos := Tree.size_pos u
  obtain ⟨v, _, hv⟩ := subtrees_add hu (k := u.size - 1) (by omega)
  have := lt_size_of_subtrees hv
  omega

theorem node_add {k : Nat} (hk : k < u.size) : (ofTree t).node (c + k) = (ofTree u).node k := by
  obtain ⟨v, hv, hv'⟩ := subtrees_add hu hk
  rw [node_ofTree hv, node_ofTree hv']

theorem getElem?_childrenOf_add {k : Nat} (hk : k < u.size) (i : Nat) :
    ((ofTree t).childrenOf (c + k))[i]? = (((ofTree u).childrenOf k)[i]?).map (c + ·) := by
  obtain ⟨v, hv, hv'⟩ := subtrees_add hu hk
  rw [← Array.getElem?_toList, ← Array.getElem?_toList, childrenOf_ofTree hv, childrenOf_ofTree hv',
    Nat.add_assoc, Tree.starts_add, List.getElem?_map]

theorem childrenOf_add {p i k : Nat} (h : ((ofTree u).childrenOf p)[i]? = some k) :
    ((ofTree t).childrenOf (c + p))[i]? = some (c + k) := by
  obtain ⟨v, _, hv, _⟩ := getElem?_childrenOf_eq_some.mp h
  rw [getElem?_childrenOf_add hu (lt_size_of_subtrees hv), h, Option.map_some]

theorem parent?_add {k p : Nat} (h : (ofTree u).parent? k = some p) :
    (ofTree t).parent? (c + k) = some (c + p) := by
  obtain ⟨i, hi⟩ := parent?_eq_some_iff.mp h
  exact parent?_eq_some_iff.mpr ⟨i, childrenOf_add hu hi⟩

theorem path_add {k : Nat} (hk : k < u.size) :
    ((ofTree t).path (c + k)).toList =
      ((ofTree t).path c).toList ++ ((ofTree u).path k).toList := by
  induction k using parent_induction u with
  | root k hp =>
    obtain rfl : k = 0 := by
      refine Nat.eq_zero_of_not_pos fun hpos => ?_
      obtain ⟨p, i, hi⟩ := exists_childrenOf hk hpos
      simp [parent?_eq_some_iff.mpr ⟨i, hi⟩] at hp
    simp [path, link_ofTree_root (t := u)]
  | child k p hp ih =>
    obtain ⟨i, hi⟩ := parent?_eq_some_iff.mp hp
    have hlt := (stop_child hi).1
    rw [path_child hi, path_child (childrenOf_add hu hi), Array.toList_push, Array.toList_push,
      ih (by omega), List.append_assoc]

end Links

theorem compare_append (l m n : List Nat) : Ord.compare (l ++ m) (l ++ n) = Ord.compare m n := by
  induction l with
  | nil => rfl
  | cons x l ih =>
    rw [List.cons_append, List.cons_append, List.compare_cons_cons, ih]
    simp

section Moves

variable (hu : t.subtrees[c]? = some u)

include hu

theorem compare_add {a b : Nat} (ha : a < u.size) (hb : b < u.size) :
    (ofTree t).compare (c + a) (c + b) = (ofTree u).compare a b := by
  simp only [compare, path_add hu ha, path_add hu hb, compare_append, Nat.add_left_cancel_iff]

theorem firstChild?_add {k : Nat} (hk : k < u.size) :
    (ofTree t).firstChild? (c + k) = ((ofTree u).firstChild? k).map (c + ·) :=
  getElem?_childrenOf_add hu hk 0

theorem directNeighbor?_add {k p : Nat} (h : (ofTree u).parent? k = some p) :
    (ofTree t).directNeighbor? (c + k) = ((ofTree u).directNeighbor? k).map (c + ·) := by
  obtain ⟨i, hi⟩ := parent?_eq_some_iff.mp h
  obtain ⟨v, _, hv, _⟩ := getElem?_childrenOf_eq_some.mp hi
  rw [directNeighbor?_child hi, directNeighbor?_child (childrenOf_add hu hi),
    getElem?_childrenOf_add hu (lt_size_of_subtrees hv)]

theorem neighborWithin?_add {k a : Nat} (h : k = a ∨ a ∈ (ofTree u).ancestors k) :
    (ofTree t).neighborWithin? (c + k) (c + a) = ((ofTree u).neighborWithin? k a).map (c + ·) := by
  induction k using parent_induction u with
  | root k hp =>
    obtain rfl : k = a := by simpa [ancestors_of_parent?_eq_none hp] using h
    simp [neighborWithin?_eq]
  | child k p hp ih =>
    rw [neighborWithin?_eq, neighborWithin?_eq k a]
    by_cases hk : k = a
    · simp [hk]
    · have ha := (mem_ancestors_iff hp).mp (h.resolve_left hk)
      have hup := ih (ha.imp_left Eq.symm)
      rw [if_neg hk, if_neg (by omega), directNeighbor?_add hu hp, parent?_add hu hp, hp,
        Option.bind_some, Option.bind_some, hup]
      cases (ofTree u).directNeighbor? k <;> rfl

theorem nextWithin?_add {k a : Nat} (h : a ∈ (ofTree u).ancestors k) :
    (ofTree t).nextWithin? (c + k) (c + a) = ((ofTree u).nextWithin? k a).map (c + ·) := by
  rw [nextWithin?, nextWithin?, firstChild?_add hu (lt_size_of_mem_ancestors h),
    neighborWithin?_add hu (.inr h)]
  cases (ofTree u).firstChild? k <;> rfl

theorem lastBefore?_add {k a : Nat} (h : a ∈ (ofTree u).ancestors k) :
    lastBefore? (c + a) (c + k) ((ofTree t).ancestors (c + k)) =
      (lastBefore? a k ((ofTree u).ancestors k)).map (c + ·) := by
  induction k using parent_induction u with
  | root k hp => simp [ancestors_of_parent?_eq_none hp] at h
  | child k p hp ih =>
    rw [ancestors_of_parent? hp, ancestors_of_parent? (parent?_add hu hp), lastBefore?, lastBefore?]
    by_cases hpa : p = a
    · simp [hpa]
    · have ha := (mem_ancestors_iff hp).mp h
      rw [if_neg hpa, if_neg (by omega), ih (ha.resolve_left fun he => hpa he.symm)]

theorem directChildOf?_add {k a : Nat} (h : a ∈ (ofTree u).ancestors k) :
    (ofTree t).directChildOf? (c + k) (c + a) = ((ofTree u).directChildOf? k a).map (c + ·) := by
  obtain ⟨p, hp⟩ := exists_parent?_of_mem_ancestors h
  rw [directChildOf?, directChildOf?, parent?_add hu hp, hp, lastBefore?_add hu h]
  by_cases hpa : p = a
  · simp [hpa]
  · rw [if_neg (by simpa using hpa), if_neg (by simpa using hpa)]
    cases hz : lastBefore? a k ((ofTree u).ancestors k) with
    | none => rfl
    | some z =>
      rw [Option.map_some, Option.bind_some, Option.bind_some,
        directNeighbor?_add hu (lastBefore?_spec hz).1]

end Moves

end LinkedTree

end TreeQuery
