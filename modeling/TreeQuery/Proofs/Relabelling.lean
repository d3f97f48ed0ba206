import TreeQuery.Proofs.Intervals
import TreeQuery.Proofs.Places

/-! Labels do not matter to the shape of a tree, and any labels are a function of the places. So the
linked tree that is searched, in which each node is known by its place, has the parents of the
subject and at each place the subject's node. -/

namespace TreeQuery

namespace Tree

variable {α β : Type}

theorem subtreesOf_mapAll (f : α → β) (ts : List (Tree α)) :
    subtreesOf (mapAll f ts) = (subtreesOf ts).map (map f) := by
  induction ts using walk_induction with
  | nil => rfl
  | cons t ts ih =>
    obtain ⟨a, us⟩ := t
    rw [children, mapAll_eq_map, List.map_append, ← mapAll_eq_map, ← mapAll_eq_map] at ih
    rw [mapAll, subtreesOf_cons, subtreesOf_cons, List.map_cons, children, ← ih, map]
    rfl

theorem getElem?_subtreesOf_numberAll (start : Nat) (ts : List (Tree α)) (k : Nat) :
    (subtreesOf (numberAll start ts))[k]? = (subtreesOf ts)[k]?.map (number (start + k)) := by
  induction ts using walk_induction generalizing start k with
  | nil => rfl
  | cons t ts ih =>
    rw [numberAll, subtreesOf_cons, subtreesOf_cons]
    cases k with
    | zero => rfl
    | succ k =>
      obtain ⟨a, us⟩ := t
      have hsize : start + (node a us).size = start + 1 + sizes us := by
        rw [size]
        omega
      have hh := ih (start + 1) k
      rw [children, numberAll_append, ← hsize] at hh
      rw [List.getElem?_cons_succ, List.getElem?_cons_succ, Nat.add_comm k, ← Nat.add_assoc]
      exact hh

theorem starts_eq_of_sizes {first : Nat} {ts : List (Tree α)} {us : List (Tree β)}
    (h : ts.map size = us.map size) : starts first ts = starts first us := by
  induction ts generalizing first us with
  | nil =>
    obtain rfl : us = [] := by simpa using h.symm
    rfl
  | cons t ts ih =>
    cases us with
    | nil => simp at h
    | cons u us =>
      rw [List.map_cons, List.map_cons, List.cons.injEq] at h
      rw [starts, starts, h.1, ih h.2]

theorem size_number (t : Tree α) (start : Nat) : (t.number start).size = t.size := by
  have hlength := congrArg List.length (numbers_preorders start [t])
  simpa [numberAll, preorders, sizes, length_preorder] using hlength

theorem map_size_numberAll (start : Nat) (ts : List (Tree α)) :
    (numberAll start ts).map size = ts.map size := by
  induction ts generalizing start with
  | nil => rfl
  | cons t ts ih => rw [numberAll, List.map_cons, List.map_cons, size_number, ih]

theorem subtrees_map (f : α → β) (t : Tree α) : (t.map f).subtrees = t.subtrees.map (map f) := by
  rw [← subtreesOf_singleton, ← subtreesOf_singleton, ← subtreesOf_mapAll]
  rfl

theorem getElem?_subtrees_number (start : Nat) (t : Tree α) (k : Nat) :
    (t.number start).subtrees[k]? = t.subtrees[k]?.map (number (start + k)) := by
  rw [← subtreesOf_singleton, ← subtreesOf_singleton, ← getElem?_subtreesOf_numberAll]
  rfl

theorem getElem?_subtrees_places (t : Tree α) (k : Nat) :
    t.places.subtrees[k]? = t.subtrees[k]?.map fun u => (u.number k).map Prod.fst := by
  rw [places, subtrees_map, List.getElem?_map, getElem?_subtrees_number, Option.map_map,
    Nat.zero_add]
  rfl

theorem starts_places (first k : Nat) (u : Tree α) :
    starts first ((u.number k).map Prod.fst).children = starts first u.children := by
  obtain ⟨a, us⟩ := u
  rw [number, map, children, children, mapAll_eq_map]
  apply starts_eq_of_sizes
  rw [List.map_map, ← map_size_numberAll (k + 1) us]
  exact List.map_congr_left fun v _ => size_map Prod.fst v

variable {γ : Type}

theorem map_map (f : α → β) (g : β → γ) (t : Tree α) : (t.map f).map g = t.map (g ∘ f) := by
  induction t using Tree.induction with
  | node a ts ih =>
    simp only [map, mapAll_eq_map, List.map_map, Function.comp_apply]
    exact congrArg _ (List.map_congr_left ih)

theorem mem_preorders {b : α} {ts : List (Tree α)} :
    b ∈ preorders ts ↔ ∃ t ∈ ts, b ∈ t.preorder := by
  induction ts with
  | nil => simp [preorders]
  | cons t ts ih => simp [preorders, ih]

theorem map_congr {f g : α → β} {t : Tree α} (h : ∀ a ∈ t.preorder, f a = g a) :
    t.map f = t.map g := by
  induction t using Tree.induction with
  | node a ts ih =>
    rw [preorder, List.forall_mem_cons] at h
    rw [map, map, mapAll_eq_map, mapAll_eq_map, h.1]
    refine congrArg _ (List.map_congr_left fun t ht => ih t ht fun b hb => ?_)
    exact h.2 b (mem_preorders.mpr ⟨t, ht, hb⟩)

theorem map_id (t : Tree α) : t.map id = t := by
  induction t using Tree.induction with
  | node a ts ih =>
    rw [map, mapAll_eq_map, List.map_congr_left ih, List.map_id']
    rfl

mutual

theorem number_map (f : α → β) (start : Nat) :
    ∀ t : Tree α, (t.map f).number start = (t.number start).map (Prod.map id f)
  | node a ts => by
    rw [map, number, numberAll_map f (start + 1) ts, number, map]
    rfl

theorem numberAll_map (f : α → β) (start : Nat) : ∀ ts : List (Tree α),
    numberAll start (mapAll f ts) = mapAll (Prod.map id f) (numberAll start ts)
  | [] => rfl
  | t :: ts => by
    rw [mapAll, numberAll, number_map f start t, size_map, numberAll_map f (start + t.size) ts,
      numberAll, mapAll]

end

theorem places_map (f : α → β) (t : Tree α) : (t.map f).places = t.places := by
  rw [places, places, number_map, map_map]
  rfl

mutual

theorem map_snd_number (start : Nat) : ∀ t : Tree α, (t.number start).map Prod.snd = t
  | node a ts => by rw [number, map, mapAll_snd_numberAll (start + 1) ts]

theorem mapAll_snd_numberAll (start : Nat) :
    ∀ ts : List (Tree α), mapAll Prod.snd (numberAll start ts) = ts
  | [] => rfl
  | t :: ts => by
    rw [numberAll, mapAll, map_snd_number start t, mapAll_snd_numberAll (start + t.size) ts]

end

/-- The label with number `k` is the one at place `k` in pre-order. -/
theorem getElem?_preorder_of_mem_number {t : Tree α} {k : Nat} {a : α}
    (h : (k, a) ∈ (t.number 0).preorder) : t.preorder[k]? = some a := by
  obtain ⟨i, hi⟩ := List.mem_iff_getElem?.mp h
  rw [← map_label_subtrees, List.getElem?_map, Option.map_eq_some_iff] at hi
  obtain ⟨u, hu, hlabel⟩ := hi
  obtain rfl : i = k := by
    have hplace := label_of_subtrees_number hu
    rw [hlabel] at hplace
    omega
  rw [getElem?_subtrees_number, Option.map_eq_some_iff] at hu
  obtain ⟨v, hv, rfl⟩ := hu
  obtain ⟨b, ts⟩ := v
  obtain ⟨_, rfl⟩ := Prod.mk.inj hlabel
  rw [← map_label_subtrees, List.getElem?_map, hv]
  rfl

/-- Any labels are a function of the places. -/
theorem map_eq_map_places {t : Tree α} {f : α → β} {g : Nat → β}
    (h : ∀ k a, t.preorder[k]? = some a → f a = g k) : t.map f = t.places.map g := by
  have hlabels : ∀ b ∈ (t.number 0).preorder, f b.2 = g b.1 := by
    rintro ⟨k, a⟩ hb
    exact h k a (getElem?_preorder_of_mem_number hb)
  calc t.map f
    _ = ((t.number 0).map Prod.snd).map f := by rw [map_snd_number]
    _ = (t.number 0).map fun b => g b.1 := by rw [map_map]; exact map_congr hlabels
    _ = t.places.map g := by rw [places, map_map]; rfl

end Tree

namespace LinkedTree

variable {α : Type} {t : Tree α} {id p : Nat}

theorem parent?_places_iff :
    (ofTree t.places).parent? id = some p ↔
      ∃ u, t.subtrees[p]? = some u ∧ id ∈ Tree.starts (p + 1) u.children := by
  rw [← mem_childrenOf_iff]
  cases h : t.subtrees[p]? with
  | none =>
    have hp : ¬ p < t.places.size := by
      rw [Tree.size_places, ← Tree.length_subtrees]
      exact Nat.not_lt.mpr (List.getElem?_eq_none_iff.mp h)
    rw [toList_childrenOf, if_neg hp]
    simp
  | some u =>
    have hp := Tree.getElem?_subtrees_places t p
    rw [h, Option.map_some] at hp
    rw [childrenOf_ofTree hp, Tree.starts_places]
    simp

end LinkedTree

namespace Subject

end Subject

end TreeQuery
