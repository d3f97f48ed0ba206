import TreeQuery.Proofs.Relabelling

/-! Trees with further trees inserted below their roots. The nodes that were there before are there
still, in the same order and each with the same parent, though at later places. -/

namespace TreeQuery

namespace Tree

variable {α : Type}

/-- The second list is the first with further trees inserted, beside its own and among the children
at every level. Two single trees can only differ below their roots. -/
inductive Insertion : List (Tree α) → List (Tree α) → Type
  | nil : Insertion [] []
  | keep {ts us ts' us' : List (Tree α)} (label : α) (below : Insertion ts us)
      (rest : Insertion ts' us') : Insertion (node label ts :: ts') (node label us :: us')
  | insert {ts us : List (Tree α)} (u : Tree α) (rest : Insertion ts us) : Insertion ts (u :: us)

namespace Insertion

/-- Where each node has gone, by its place in pre-order. -/
def embed {ts us : List (Tree α)} : Insertion ts us → Nat → Nat
  | .nil, k => k
  | .keep _ _ _, 0 => 0
  | @keep _ ts us _ _ _ below rest, k + 1 =>
    if k < sizes ts then below.embed k + 1 else sizes us + 1 + rest.embed (k - sizes ts)
  | .insert u rest, k => u.size + rest.embed k

variable {ts us ts' us' : List (Tree α)} {e : α}

theorem embed_below (below : Insertion ts us) (rest : Insertion ts' us') {k : Nat}
    (h : k < sizes ts) : (keep e below rest).embed (k + 1) = below.embed k + 1 :=
  if_pos h

theorem embed_beside (below : Insertion ts us) (rest : Insertion ts' us') (k : Nat) :
    (keep e below rest).embed (sizes ts + k + 1) = sizes us + 1 + rest.embed k := by
  rw [embed, if_neg (by omega), Nat.add_sub_cancel_left]

theorem embed_lt (i : Insertion ts us) {k : Nat} (h : k < sizes ts) : i.embed k < sizes us := by
  induction i generalizing k with
  | nil => exact h
  | @keep ts us ts' us' label below rest ihbelow ihrest =>
    simp only [sizes, size] at h ⊢
    cases k with
    | zero =>
      rw [embed]
      omega
    | succ k =>
      by_cases hk : k < sizes ts
      · have := ihbelow hk
        rw [embed_below below rest hk]
        omega
      · obtain ⟨l, rfl⟩ := Nat.exists_eq_add_of_le (Nat.le_of_not_lt hk)
        have := ihrest (k := l) (by omega)
        rw [embed_beside]
        omega
  | insert u rest ih =>
    have := ih h
    rw [embed, sizes]
    omega

theorem strictMono_embed (i : Insertion ts us) : StrictMono i.embed := by
  induction i with
  | nil => exact strictMono_id
  | @keep ts us ts' us' label below rest ihbelow ihrest =>
    refine strictMono_nat_of_lt_succ fun k => ?_
    cases k with
    | zero =>
      rw [embed, embed]
      split <;> omega
    | succ k =>
      rcases Nat.lt_trichotomy (k + 1) (sizes ts) with hk | hk | hk
      · have hlt : below.embed k < below.embed (k + 1) := ihbelow (Nat.lt_succ_self k)
        rw [embed_below below rest (Nat.lt_of_succ_lt hk), embed_below below rest hk]
        omega
      · have hlt := below.embed_lt (k := k) (by omega)
        have hbeside := embed_beside (e := label) below rest 0
        rw [Nat.add_zero, ← hk] at hbeside
        rw [embed_below below rest (by omega), hbeside]
        omega
      · obtain ⟨l, rfl⟩ := Nat.exists_eq_add_of_le (Nat.le_of_lt_succ hk)
        have hlt : rest.embed l < rest.embed (l + 1) := ihrest (Nat.lt_succ_self l)
        rw [embed_beside, Nat.add_assoc (sizes ts), embed_beside]
        omega
  | insert u rest ih =>
    intro k l hkl
    have hlt : rest.embed k < rest.embed l := ih hkl
    simp only [embed]
    omega

theorem mem_starts_iff {first id : Nat} {ts : List (Tree α)} :
    id ∈ starts first ts ↔ ∃ k ∈ starts 0 ts, first + k = id := by
  have hadd := starts_add first 0 ts
  rw [Nat.add_zero] at hadd
  rw [hadd, List.mem_map]

theorem lt_of_mem_starts {k : Nat} {ts : List (Tree α)} (h : k ∈ starts 0 ts) : k < sizes ts := by
  induction ts generalizing k with
  | nil => simp [starts] at h
  | cons t ts ih =>
    have hpos := size_pos t
    rw [sizes]
    rcases List.mem_cons.mp h with rfl | h
    · omega
    · obtain ⟨l, hl, rfl⟩ := mem_starts_iff.mp h
      have hlt := ih hl
      omega

/-- Roots go to roots. -/
theorem embed_mem_starts (i : Insertion ts us) {k : Nat} (h : k ∈ starts 0 ts) :
    i.embed k ∈ starts 0 us := by
  induction i generalizing k with
  | nil => simp [starts] at h
  | @keep ts us ts' us' label below rest _ ihrest =>
    rcases List.mem_cons.mp h with rfl | h
    · exact List.mem_cons_self
    · obtain ⟨l, hl, rfl⟩ := mem_starts_iff.mp h
      have hplace : 0 + (node label ts).size + l = sizes ts + l + 1 := by
        rw [size]
        omega
      rw [hplace, embed_beside]
      exact List.mem_cons_of_mem _ (mem_starts_iff.mpr ⟨_, ihrest hl, by rw [size, Nat.zero_add]⟩)
  | insert u rest ih =>
    exact List.mem_cons_of_mem _ (mem_starts_iff.mpr ⟨_, ih h, by rw [embed, Nat.zero_add]⟩)

theorem add_size_le_sizes {k : Nat} {v : Tree α} (h : (subtreesOf ts)[k]? = some v) :
    k + v.size ≤ sizes ts := by
  have hpos := size_pos v
  have hlast := getElem?_subtreesOf_add h (k := v.size - 1) (by omega)
  rw [List.getElem?_eq_getElem (l := v.subtrees) (by rw [length_subtrees]; omega)] at hlast
  have hlt := (List.getElem?_eq_some_iff.mp hlast).1
  rw [length_subtreesOf] at hlt
  omega

/-- Below a node of the first trees, what has been inserted is an insertion of its own. -/
theorem exists_subtree (i : Insertion ts us) {k : Nat} {v : Tree α}
    (h : (subtreesOf ts)[k]? = some v) :
    ∃ (w : Tree α) (below : Insertion v.children w.children),
      (subtreesOf us)[i.embed k]? = some w ∧ w.label = v.label ∧
        ∀ l < sizes v.children, i.embed (k + 1 + l) = i.embed k + 1 + below.embed l := by
  induction i generalizing k with
  | nil => simp [subtreesOf] at h
  | @keep ts us ts' us' label below rest ihbelow ihrest =>
    rw [subtreesOf_cons, children, subtreesOf_append] at h ⊢
    cases k with
    | zero =>
      obtain rfl : node label ts = v := by simpa using h
      refine ⟨node label us, below, rfl, rfl, fun l hl => ?_⟩
      change (keep label below rest).embed (0 + 1 + l) = 0 + 1 + below.embed l
      have hl : l < sizes ts := hl
      rw [Nat.zero_add, Nat.add_comm 1 l, embed_below below rest hl, Nat.add_comm]
    | succ k =>
      rw [List.getElem?_cons_succ] at h
      by_cases hk : k < sizes ts
      · rw [List.getElem?_append_left (by rwa [length_subtreesOf])] at h
        have hsize := add_size_le_sizes h
        rw [size_eq] at hsize
        obtain ⟨w, j, hw, hlabel, hj⟩ := ihbelow h
        refine ⟨w, j, ?_, hlabel, fun l hl => ?_⟩
        · rw [embed_below below rest hk, List.getElem?_cons_succ,
            List.getElem?_append_left (by rw [length_subtreesOf]; exact below.embed_lt hk)]
          exact hw
        · rw [embed_below below rest hk, Nat.add_right_comm (k + 1),
            embed_below below rest (by omega), hj l hl]
          omega
      · obtain ⟨m, rfl⟩ := Nat.exists_eq_add_of_le (Nat.le_of_not_lt hk)
        rw [List.getElem?_append_right (by rw [length_subtreesOf]; omega), length_subtreesOf,
          Nat.add_sub_cancel_left] at h
        obtain ⟨w, j, hw, hlabel, hj⟩ := ihrest h
        refine ⟨w, j, ?_, hlabel, fun l hl => ?_⟩
        · rw [embed_beside, Nat.add_right_comm, List.getElem?_cons_succ,
            List.getElem?_append_right (by rw [length_subtreesOf]; omega), length_subtreesOf,
            Nat.add_sub_cancel_left]
          exact hw
        · have hplace : sizes ts + m + 1 + 1 + l = sizes ts + (m + 1 + l) + 1 := by omega
          rw [hplace, embed_beside, embed_beside, hj l hl]
          omega
  | insert u rest ih =>
    obtain ⟨w, j, hw, hlabel, hj⟩ := ih h
    refine ⟨w, j, ?_, hlabel, fun l hl => ?_⟩
    · rw [embed, subtreesOf, List.getElem?_append_right (by rw [length_subtrees]; omega),
        length_subtrees, Nat.add_sub_cancel_left]
      exact hw
    · rw [embed, embed, hj l hl]
      omega

section Moves

variable {n n' : Tree α} (i : Insertion [n] [n']) {id a x : Nat}

theorem embed_root : i.embed 0 = 0 := by
  have hroot := i.embed_mem_starts (k := 0) List.mem_cons_self
  exact List.mem_singleton.mp hroot

theorem embed_lt_size (h : id < n.size) : i.embed id < n'.size := by
  have hlt := i.embed_lt (k := id) (by simpa [sizes] using h)
  simpa [sizes] using hlt

theorem parent?_embed (h : (LinkedTree.ofTree n.places).parent? id = some a) :
    (LinkedTree.ofTree n'.places).parent? (i.embed id) = some (i.embed a) := by
  obtain ⟨v, hv, hid⟩ := LinkedTree.parent?_places_iff.mp h
  obtain ⟨l, hl, rfl⟩ := mem_starts_iff.mp hid
  rw [← subtreesOf_singleton] at hv
  obtain ⟨w, below, hw, _, hbelow⟩ := i.exists_subtree hv
  rw [subtreesOf_singleton] at hw
  refine LinkedTree.parent?_places_iff.mpr ⟨w, hw, ?_⟩
  rw [hbelow l (lt_of_mem_starts hl)]
  exact mem_starts_iff.mpr ⟨_, below.embed_mem_starts hl, rfl⟩

theorem mem_ancestors_embed (h : a ∈ (LinkedTree.ofTree n.places).ancestors id) :
    i.embed a ∈ (LinkedTree.ofTree n'.places).ancestors (i.embed id) := by
  induction id using LinkedTree.parent_induction n.places with
  | root id hp => simp [LinkedTree.ancestors_of_parent?_eq_none hp] at h
  | child id p hp ih =>
    have hp' := i.parent?_embed hp
    rcases (LinkedTree.mem_ancestors_iff hp).mp h with rfl | ha
    · exact LinkedTree.parent?_mem_ancestors hp'
    · exact (LinkedTree.mem_ancestors_iff hp').mpr (.inr (ih ha))

/-- Nothing gets a new ancestor among the nodes that were there before. -/
theorem mem_ancestors_of_embed (hid : id < n.size)
    (h : i.embed a ∈ (LinkedTree.ofTree n'.places).ancestors (i.embed id)) :
    a ∈ (LinkedTree.ofTree n.places).ancestors id := by
  induction id using LinkedTree.parent_induction n.places with
  | root id hp =>
    have hzero : id = 0 := by
      refine Nat.eq_zero_of_not_pos fun hpos => ?_
      rw [← size_places] at hid
      obtain ⟨p, j, hj⟩ := LinkedTree.exists_childrenOf hid hpos
      rw [LinkedTree.parent?_eq_some_iff.mpr ⟨j, hj⟩] at hp
      exact absurd hp (by simp)
    rw [hzero, i.embed_root, LinkedTree.ancestors_eq_nil (.inl rfl)] at h
    exact absurd h List.not_mem_nil
  | child id p hp ih =>
    rw [LinkedTree.mem_ancestors_iff (i.parent?_embed hp)] at h
    refine (LinkedTree.mem_ancestors_iff hp).mpr (h.imp (i.strictMono_embed.injective ·) ?_)
    have hlt := LinkedTree.parent?_lt hp
    exact ih (by omega)

/-- What lies past a subtree lies past it still, and past all that was inserted there. -/
theorem stop_embed_le (h : n.places.stop id ≤ x) (hx : x < n.size) :
    n'.places.stop (i.embed id) ≤ i.embed x := by
  refine Nat.le_of_not_lt fun hlt => ?_
  have hle : id ≤ n.places.stop id := Nat.le_add_right id _
  rcases Nat.eq_or_lt_of_le (Nat.le_trans hle h) with rfl | hid
  · have hself : id < n.places.stop id := LinkedTree.lt_stop_self (by rwa [size_places])
    omega
  · have hancestor : i.embed id ∈ (LinkedTree.ofTree n'.places).ancestors (i.embed x) :=
      LinkedTree.mem_ancestors_iff_lt_stop.mpr ⟨i.strictMono_embed hid, hlt⟩
    have hinside := i.mem_ancestors_of_embed hx hancestor
    have := (LinkedTree.mem_ancestors_iff_lt_stop.mp hinside).2
    omega

theorem firstChild?_embed {c : Nat} (h : (LinkedTree.ofTree n.places).firstChild? id = some c) :
    ∃ c', (LinkedTree.ofTree n'.places).firstChild? (i.embed id) = some c' ∧ c' ≤ i.embed c := by
  have hparent := i.parent?_embed (LinkedTree.firstChild?_spec h).1
  have hchild := LinkedTree.parent?_mem_ancestors hparent
  obtain ⟨hlt, hstop⟩ := LinkedTree.mem_ancestors_iff_lt_stop.mp hchild
  have hsize := LinkedTree.lt_size_of_mem_ancestors hchild
  rw [LinkedTree.firstChild?_eq (by omega), if_pos (by omega)]
  exact ⟨_, rfl, hlt⟩

theorem neighborWithin?_embed {c : Nat} (ha : a ∈ (LinkedTree.ofTree n.places).ancestors id)
    (h : (LinkedTree.ofTree n.places).neighborWithin? id a = some c) :
    ∃ c', (LinkedTree.ofTree n'.places).neighborWithin? (i.embed id) (i.embed a) = some c' ∧
      c' ≤ i.embed c := by
  obtain ⟨hin, hstop⟩ := LinkedTree.neighborWithin?_spec ha h
  have hsize := LinkedTree.lt_size_of_mem_ancestors hin
  rw [size_places] at hsize
  have hle := i.stop_embed_le hstop hsize
  have hlt := (LinkedTree.mem_ancestors_iff_lt_stop.mp (i.mem_ancestors_embed hin)).2
  rw [LinkedTree.neighborWithin?_of_mem_ancestors (i.mem_ancestors_embed ha), if_pos (by omega)]
  exact ⟨_, rfl, hle⟩

end Moves

end Insertion

end Tree

namespace Subject

end Subject

end TreeQuery
