import TreeQuery.Proofs.Intervals
import TreeQuery.Proofs.Promises

/-! Walks in pre-order from any id, stopped at any other. The stop is looked for on the way up only.
It ends the walk after its own subtree if the walk begins before the end of that, and otherwise the
walk goes on to the last id of the tree. -/

namespace TreeQuery

namespace Cells

variable {next : Nat → Option Nat}

theorem Walks.items_iterate {ε : Type} {start : Option Nat} {ids : List Nat}
    (h : Walks next start ids) {bound : Nat} (hbound : ids.length ≤ bound) :
    (Search.iterate next bound start : Search ε Nat).items = ids := by
  induction ids generalizing start bound with
  | nil =>
    obtain rfl : start = none := h
    cases bound <;> rfl
  | cons id ids ih =>
    obtain ⟨rfl, hrest⟩ := h
    cases bound with
    | zero => simp at hbound
    | succ bound =>
      rw [Search.iterate, Search.items, ih hrest (Nat.le_of_succ_le_succ hbound)]

theorem walks_range' {first stop : Nat} (hlt : first < stop)
    (hnext : ∀ id, first ≤ id → id < stop →
      next id = if id + 1 < stop then some (id + 1) else none) :
    Walks next (some first) (List.range' first (stop - first)) := by
  induction hn : stop - first generalizing first with
  | zero => omega
  | succ n ih =>
    rw [List.range'_succ]
    refine ⟨rfl, ?_⟩
    rw [hnext first (Nat.le_refl _) hlt]
    split
    next hmore => exact ih hmore (fun id hle => hnext id (by omega)) (by omega)
    next hend =>
      obtain rfl : n = 0 := by omega
      rfl

end Cells

namespace LinkedTree

variable {t : Tree Nat} {id a b : Nat}

theorem eq_zero_of_parent?_eq_none (hlt : id < t.size) (h : (ofTree t).parent? id = none) :
    id = 0 := by
  refine Nat.eq_zero_of_not_pos fun hpos => ?_
  have hroot := root_mem_ancestors hlt hpos
  simp [ancestors_of_parent?_eq_none h] at hroot

theorem neighborWithin?_self (a : Nat) : (ofTree t).neighborWithin? a a = none := by
  rw [neighborWithin?_eq, if_pos rfl]

/-- A climb that does not come by its stop ends right after the subtree it comes from. -/
theorem neighborWithin?_of_not_mem_ancestors (hlt : id < t.size) (hne : a ≠ id)
    (ha : a ∉ (ofTree t).ancestors id) :
    (ofTree t).neighborWithin? id a = if t.stop id < t.size then some (t.stop id) else none := by
  induction id using parent_induction t with
  | root id hp =>
    obtain rfl := eq_zero_of_parent?_eq_none hlt hp
    rw [neighborWithin?_eq, if_neg (Ne.symm hne), directNeighbor?_of_parent?_eq_none hp, hp,
      stop_root, if_neg (Nat.lt_irrefl _)]
    rfl
  | child id p hp ih =>
    obtain ⟨hap, hup⟩ := not_or.mp (mt (mem_ancestors_iff hp).mpr ha)
    rw [neighborWithin?_eq, if_neg (Ne.symm hne), hp, Option.bind_some]
    cases hn : (ofTree t).directNeighbor? id with
    | some next =>
      obtain ⟨hparent, rfl⟩ := directNeighbor?_spec hn
      have hnext := lt_size_of_mem_ancestors (parent?_mem_ancestors (hparent.trans hp))
      rw [if_pos hnext, Option.some_or]
    | none =>
      rw [Option.none_or, stop_eq_of_directNeighbor?_eq_none hp hn]
      exact ih (Nat.lt_trans (parent?_lt hp) hlt) hap hup

/-- Where a walk ends that begins at an id and stops at `a` on the way up. -/
def walkStop (t : Tree Nat) (id a : Nat) : Nat := if id < t.stop a then t.stop a else t.size

theorem walkStop_of_inside (h : a = id ∨ a ∈ (ofTree t).ancestors id) (hlt : id < t.size) :
    walkStop t id a = t.stop a := by
  refine if_pos ?_
  rcases h with rfl | ha
  · exact lt_stop_self hlt
  · exact (mem_ancestors_iff_lt_stop.mp ha).2

/-- Outside the subtree of its stop, a walk goes on as long as there are ids. -/
theorem lt_walkStop_of_outside (h : ¬(a = id ∨ a ∈ (ofTree t).ancestors id)) (ha : a < t.size) :
    id + 1 < walkStop t id a ↔ id + 1 < t.size := by
  have hstop := lt_stop_self ha
  have hsize := stop_le_size ha
  rw [mem_ancestors_iff_lt_stop] at h
  rw [walkStop]
  split
  · omega
  · rfl

theorem nextWithin?_eq_ite (hlt : id < t.size) (ha : a < t.size) :
    (ofTree t).nextWithin? id a = if id + 1 < walkStop t id a then some (id + 1) else none := by
  by_cases hin : a = id ∨ a ∈ (ofTree t).ancestors id
  · rw [walkStop_of_inside hin hlt]
    rcases hin with rfl | hin
    · rw [nextWithin?, firstChild?_eq hlt, neighborWithin?_self]
      split
      next hc => exact hc.symm
      next hc => exact hc.symm
    · exact nextWithin?_of_mem_ancestors hin
  · obtain ⟨hne, hout⟩ := not_or.mp hin
    simp only [lt_walkStop_of_outside hin ha]
    rw [nextWithin?, neighborWithin?_of_not_mem_ancestors hlt hne hout]
    cases hc : (ofTree t).firstChild? id with
    | some c =>
      obtain ⟨hp, rfl⟩ := firstChild?_spec hc
      rw [if_pos (lt_size_of_mem_ancestors (parent?_mem_ancestors hp))]
    | none => rw [stop_eq_of_firstChild?_eq_none hlt hc]

/-- A walk ends where it would end from any id that it comes by. -/
theorem walkStop_of_lt (hle : a ≤ id) (hlt : id < walkStop t a b) :
    walkStop t id b = walkStop t a b := by
  rw [walkStop] at hlt
  by_cases h : a < t.stop b
  · rw [if_pos h] at hlt
    rw [walkStop, walkStop, if_pos h, if_pos hlt]
  · rw [walkStop, walkStop, if_neg h, if_neg (by omega)]

section Walk

variable (ha : a < t.size) (hb : b < t.size)

include ha hb

theorem lt_walkStop : a < walkStop t a b ∧ walkStop t a b ≤ t.size := by
  have := stop_le_size hb
  rw [walkStop]
  split <;> omega

theorem walks_nextWithin? :
    Cells.Walks ((ofTree t).nextWithin? · b) (some a) (List.range' a (walkStop t a b - a)) := by
  obtain ⟨hlt, hsize⟩ := lt_walkStop ha hb
  refine Cells.walks_range' hlt fun id hle hid => ?_
  rw [nextWithin?_eq_ite (by omega) hb, walkStop_of_lt hle hid]

end Walk

/-- A walk from `a` that stops at `b` on the way up takes consecutive ids and ends: after the
subtree of `b` if it begins before that is over, and otherwise after the last id of all. The climb
from `a` leads to where the subtree of `a` is over, if that is still in the subtree of `b`, or still
in the tree where `a` lies outside of that. -/
theorem within_interval (ha : a < (ofTree t).size) (hb : b < (ofTree t).size) :
    let tree := ofTree t
    let stop := if a < t.stop b then t.stop b else tree.size
    Cells.Walks (tree.nextWithin? · b) (some a) (List.range' a (stop - a)) ∧
    (tree.within (some a) b : Search Event Nat).items = List.range' a (stop - a) ∧
    ((b = a ∨ b ∈ tree.ancestors a) →
      tree.neighborWithin? a b = if t.stop a < t.stop b then some (t.stop a) else none) ∧
    (¬(b = a ∨ b ∈ tree.ancestors a) →
      tree.neighborWithin? a b = if t.stop a < tree.size then some (t.stop a) else none) ∧
    ∀ x, x < tree.size → ∀ d, (x = d ∨ x ∈ tree.ancestors d) ↔ x ≤ d ∧ d < t.stop x := by
  intro tree stop
  have hsize : tree.size = t.size := size_ofTree
  have hstop : stop = walkStop t a b := by rw [walkStop, ← hsize]
  rw [size_ofTree] at ha hb
  have hwalks := walks_nextWithin? ha hb
  rw [← hstop] at hwalks
  refine ⟨hwalks, hwalks.items_iterate ?_, ?_, fun hout => ?_, fun x hx d => ?_⟩
  · have := lt_walkStop ha hb
    rw [List.length_range', hsize]
    omega
  · rintro (rfl | hin)
    · rw [neighborWithin?_self, if_neg (Nat.lt_irrefl _)]
    · exact neighborWithin?_of_mem_ancestors hin
  · obtain ⟨hne, hnot⟩ := not_or.mp hout
    rw [neighborWithin?_of_not_mem_ancestors ha hne hnot, hsize]
  · have := lt_stop_self (hsize ▸ hx)
    rw [mem_ancestors_iff_lt_stop]
    omega

/-- From the second child with a stop at the first, which lies behind, and from the root with a stop
at the first child, which lies ahead. -/
theorem within_interval_behind_and_ahead :
    let t : Tree Nat := .node 0 [.node 1 [.node 2 [], .node 3 []], .node 4 [.node 5 []], .node 6 []]
    let tree := ofTree t
    (4 < tree.size ∧ 1 < tree.size ∧ 0 < tree.size) ∧
      (tree.within (some 4) 1 : Search Event Nat).items = [4, 5, 6] ∧
      tree.neighborWithin? 4 1 = some 6 ∧
      (tree.within (some 0) 1 : Search Event Nat).items = [0, 1, 2, 3] := by
  intro t tree
  have hfour : 4 < tree.size := by decide +kernel
  have hone : 1 < tree.size := by decide +kernel
  have hzero : 0 < tree.size := by decide +kernel
  have hbehind := within_interval hfour hone
  have hahead := within_interval hzero hone
  refine ⟨⟨hfour, hone, hzero⟩, hbehind.2.1.trans ?_, (hbehind.2.2.2.1 ?_).trans ?_,
    hahead.2.1.trans ?_⟩
  all_goals decide +kernel

end LinkedTree

end TreeQuery
