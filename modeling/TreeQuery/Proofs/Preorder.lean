import TreeQuery.Tree

/-! Where the subtrees of a tree stand in pre-order: each takes up a stretch that begins at its own
place, and the stretches of its children fill what comes after that place. -/

namespace TreeQuery

namespace Tree

variable {α : Type}

/-- Induction along the walk: what is below the first tree comes in front of the others. -/
@[elab_as_elim]
theorem walk_induction {motive : List (Tree α) → Prop} (nil : motive [])
    (cons : ∀ t ts, motive (t.children ++ ts) → motive (t :: ts)) (ts : List (Tree α)) :
    motive ts := by
  induction hn : sizes ts using Nat.strongRecOn generalizing ts with
  | ind n ih =>
    cases ts with
    | nil => exact nil
    | cons t ts =>
      apply cons
      refine ih _ ?_ _ rfl
      rw [← hn, sizes_append, sizes, size_eq t]
      omega

theorem subtreesOf_append (ts us : List (Tree α)) :
    subtreesOf (ts ++ us) = subtreesOf ts ++ subtreesOf us := by
  induction ts with
  | nil => rfl
  | cons t ts ih => simp [subtreesOf, ih]

theorem subtrees_eq (t : Tree α) : t.subtrees = t :: subtreesOf t.children := by
  cases t; rfl

theorem subtreesOf_cons (t : Tree α) (ts : List (Tree α)) :
    subtreesOf (t :: ts) = t :: subtreesOf (t.children ++ ts) := by
  rw [subtreesOf, subtrees_eq, subtreesOf_append, List.cons_append]

theorem subtreesOf_singleton (t : Tree α) : subtreesOf [t] = t.subtrees := by
  simp [subtreesOf]

theorem sizes_cons (t : Tree α) (ts : List (Tree α)) :
    sizes (t :: ts) = sizes (t.children ++ ts) + 1 := by
  rw [sizes, sizes_append, size_eq]
  omega

theorem length_subtreesOf (ts : List (Tree α)) : (subtreesOf ts).length = sizes ts := by
  induction ts using walk_induction with
  | nil => rfl
  | cons t ts ih => rw [subtreesOf_cons, sizes_cons, List.length_cons, ih]

theorem length_subtrees (t : Tree α) : t.subtrees.length = t.size := by
  rw [← subtreesOf_singleton, length_subtreesOf]
  simp [sizes]

theorem map_label_subtreesOf (ts : List (Tree α)) :
    (subtreesOf ts).map label = preorders ts := by
  induction ts using walk_induction with
  | nil => rfl
  | cons t ts ih =>
    rw [subtreesOf_cons, List.map_cons, ih, preorders, preorder_eq, preorders_append,
      List.cons_append]

theorem map_label_subtrees (t : Tree α) : t.subtrees.map label = t.preorder := by
  rw [← subtreesOf_singleton, map_label_subtreesOf]
  simp [preorders]

theorem getElem?_subtreesOf_add {ts : List (Tree α)} {u : Tree α} {id k : Nat}
    (h : (subtreesOf ts)[id]? = some u) (hk : k < u.size) :
    (subtreesOf ts)[id + k]? = u.subtrees[k]? := by
  induction ts using walk_induction generalizing id with
  | nil => simp [subtreesOf] at h
  | cons t ts ih =>
    cases id with
    | zero =>
      rw [subtreesOf_cons] at h
      obtain rfl : t = u := by simpa using h
      rw [subtreesOf, Nat.zero_add, List.getElem?_append_left (by rwa [length_subtrees])]
    | succ id =>
      rw [subtreesOf_cons, List.getElem?_cons_succ] at h
      rw [subtreesOf_cons, Nat.add_right_comm, List.getElem?_cons_succ]
      exact ih h

/-- The stretch of a subtree lies inside that of the whole. -/
theorem getElem?_subtrees_add {t u : Tree α} {id k : Nat} (h : t.subtrees[id]? = some u)
    (hk : k < u.size) : t.subtrees[id + k]? = u.subtrees[k]? := by
  rw [← subtreesOf_singleton] at h ⊢
  exact getElem?_subtreesOf_add h hk

theorem sizes_take_succ {ts : List (Tree α)} {u : Tree α} {i : Nat} (h : ts[i]? = some u) :
    sizes (ts.take (i + 1)) = sizes (ts.take i) + u.size := by
  rw [List.take_add_one, h, sizes_append]
  simp [sizes]

theorem sizes_take_le (ts : List (Tree α)) (i : Nat) : sizes (ts.take i) ≤ sizes ts := by
  have h := sizes_append (ts.take i) (ts.drop i)
  rw [List.take_append_drop] at h
  omega

theorem getElem?_subtreesOf_take {ts : List (Tree α)} {u : Tree α} {i : Nat}
    (h : ts[i]? = some u) : (subtreesOf ts)[sizes (ts.take i)]? = some u := by
  induction ts generalizing i with
  | nil => simp at h
  | cons t ts ih =>
    cases i with
    | zero =>
      rw [subtreesOf_cons]
      simpa [sizes] using h
    | succ i =>
      have hle : t.subtrees.length ≤ t.size + sizes (ts.take i) := by
        rw [length_subtrees]
        omega
      rw [List.take_succ_cons, sizes, subtreesOf, List.getElem?_append_right hle, length_subtrees,
        Nat.add_sub_cancel_left]
      exact ih (by simpa using h)

/-- Where the trees of a list begin when they are laid out one after the other. -/
def starts (first : Nat) : List (Tree α) → List Nat
  | [] => []
  | t :: ts => first :: starts (first + t.size) ts

theorem getElem?_starts (first : Nat) (ts : List (Tree α)) (i : Nat) :
    (starts first ts)[i]? = ts[i]?.map fun _ => first + sizes (ts.take i) := by
  induction ts generalizing first i with
  | nil => rfl
  | cons t ts ih =>
    cases i with
    | zero => simp [starts, sizes]
    | succ i => simp [starts, sizes, ih, Nat.add_assoc]

theorem starts_append (first : Nat) (ts us : List (Tree α)) :
    starts first (ts ++ us) = starts first ts ++ starts (first + sizes ts) us := by
  induction ts generalizing first with
  | nil => rfl
  | cons t ts ih => simp [starts, sizes, ih, Nat.add_assoc]

theorem starts_add (offset first : Nat) (ts : List (Tree α)) :
    starts (offset + first) ts = (starts first ts).map (offset + ·) := by
  induction ts generalizing first with
  | nil => rfl
  | cons t ts ih => simp [starts, ← ih, Nat.add_assoc]

theorem le_of_mem_starts {first id : Nat} {ts : List (Tree α)} (h : id ∈ starts first ts) :
    first ≤ id := by
  induction ts generalizing first with
  | nil => simp [starts] at h
  | cons t ts ih =>
    rcases List.mem_cons.mp h with rfl | h
    · exact Nat.le_refl _
    · have := ih h
      omega

theorem pairwise_starts (first : Nat) (ts : List (Tree α)) :
    (starts first ts).Pairwise (· < ·) := by
  induction ts generalizing first with
  | nil => exact .nil
  | cons t ts ih =>
    refine List.pairwise_cons.mpr ⟨fun id hid => ?_, ih _⟩
    have := le_of_mem_starts hid
    have := size_pos t
    omega

theorem succ_mem_starts {first id : Nat} {ts : List (Tree α)} (h : id ∈ starts first ts) :
    id + 1 ∈ starts (first + 1) ts := by
  rw [Nat.add_comm first, starts_add, Nat.add_comm id]
  exact List.mem_map_of_mem h

theorem getElem?_subtrees_child {t u v : Tree α} {id i : Nat} (hu : t.subtrees[id]? = some u)
    (hv : u.children[i]? = some v) :
    t.subtrees[id + 1 + sizes (u.children.take i)]? = some v := by
  have hlt : 1 + sizes (u.children.take i) < u.size := by
    have := sizes_take_succ hv
    have := sizes_take_le u.children (i + 1)
    have := size_pos v
    rw [size_eq u]
    omega
  rw [Nat.add_assoc, getElem?_subtrees_add hu hlt, subtrees_eq, Nat.add_comm 1,
    List.getElem?_cons_succ]
  exact getElem?_subtreesOf_take hv

/-- Every place is that of a tree of the list or of a child of a tree at an earlier place. -/
theorem exists_start_or_child {ts : List (Tree α)} {id : Nat} (h : id < sizes ts) :
    id ∈ starts 0 ts ∨
      ∃ (p : Nat) (u : Tree α), (subtreesOf ts)[p]? = some u ∧ id ∈ starts (p + 1) u.children := by
  induction ts using walk_induction generalizing id with
  | nil => simp [sizes] at h
  | cons t ts ih =>
    cases id with
    | zero => exact .inl List.mem_cons_self
    | succ id =>
      rw [sizes_cons] at h
      rcases ih (Nat.lt_of_succ_lt_succ h) with hid | ⟨p, u, hu, hid⟩
      · rw [starts_append, List.mem_append, Nat.zero_add] at hid
        rcases hid with hid | hid
        · exact .inr ⟨0, t, by simp [subtreesOf_cons], succ_mem_starts hid⟩
        · refine .inl (List.mem_cons_of_mem _ ?_)
          rw [size_eq, Nat.zero_add]
          exact succ_mem_starts hid
      · exact .inr ⟨p + 1, u, by rwa [subtreesOf_cons, List.getElem?_cons_succ],
          succ_mem_starts hid⟩

theorem exists_parent {t : Tree α} {id : Nat} (h : id < t.size) (hpos : 0 < id) :
    ∃ (p : Nat) (u : Tree α), t.subtrees[p]? = some u ∧ id ∈ starts (p + 1) u.children := by
  have hsizes : id < sizes [t] := by simpa [sizes] using h
  rw [← subtreesOf_singleton]
  refine (exists_start_or_child hsizes).resolve_left ?_
  simp [starts]
  omega

/-- One past the last place of the subtree at a place. -/
def stop (t : Tree α) (id : Nat) : Nat := id + (t.subtrees[id]?.map size).getD 0

end Tree

end TreeQuery
