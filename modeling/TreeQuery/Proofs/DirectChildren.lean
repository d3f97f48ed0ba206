import Mathlib.Order.Bounds.Basic
import TreeQuery.Proofs.Candidates

/-! Moves to the children of a scope. A move leads to the least child that is not before the place
it starts from, and so the candidates among the direct children are just those candidates of the
whole scope that are its children. -/

namespace TreeQuery

theorem head?_eq_some_iff_of_pairwise_lt {l : List Nat} (h : l.Pairwise (· < ·)) {c : Nat} :
    l.head? = some c ↔ IsLeast {d | d ∈ l} c := by
  cases l with
  | nil => simp [IsLeast]
  | cons first rest =>
    have hfirst := (List.pairwise_cons.mp h).1
    rw [List.head?_cons, Option.some.injEq]
    constructor
    · rintro rfl
      refine ⟨List.mem_cons_self, fun d hd => ?_⟩
      rcases List.mem_cons.mp hd with rfl | hd
      · exact Nat.le_refl _
      · exact Nat.le_of_lt (hfirst d hd)
    · rintro ⟨hmem, hleast⟩
      rcases List.mem_cons.mp hmem with rfl | hmem
      · rfl
      · have := hleast List.mem_cons_self
        have := hfirst c hmem
        omega

namespace LinkedTree

variable {t : Tree Nat} {id a c : Nat}

theorem lastBefore?_eq_none {up : List Nat} (h : a ∉ up) : lastBefore? a id up = none := by
  induction up generalizing id with
  | nil => rfl
  | cons next up ih =>
    obtain ⟨hnext, hup⟩ := List.ne_and_not_mem_of_not_mem_cons h
    rw [lastBefore?, if_neg (Ne.symm hnext), ih hup]

theorem directChildOf?_eq_none (h : a ∉ (ofTree t).ancestors id) :
    (ofTree t).directChildOf? id a = none := by
  have hparent : (ofTree t).parent? id ≠ some a := fun hp => h (parent?_mem_ancestors hp)
  rw [directChildOf?, if_neg hparent, lastBefore?_eq_none h, Option.bind_none]

theorem directChildOf?_eq_head? (h : a ∈ (ofTree t).ancestors id) :
    (ofTree t).directChildOf? id a = (((ofTree t).childrenOf a).toList.filter (id ≤ ·)).head? := by
  obtain ⟨i, hi, hdrop⟩ := exists_directChildOf?_eq h
  rw [hi, hdrop, List.head?_drop, Array.getElem?_toList]

theorem directChildOf?_eq_some_iff :
    (ofTree t).directChildOf? id a = some c ↔
      a ∈ (ofTree t).ancestors id ∧ IsLeast {d | (ofTree t).parent? d = some a ∧ id ≤ d} c := by
  by_cases h : a ∈ (ofTree t).ancestors id
  · have hmem : {d | d ∈ ((ofTree t).childrenOf a).toList.filter (id ≤ ·)} =
        {d | (ofTree t).parent? d = some a ∧ id ≤ d} := by
      ext d
      rw [Set.mem_ofPred_eq, Set.mem_ofPred_eq, List.mem_filter, mem_childrenOf_iff,
        decide_eq_true_iff]
    rw [directChildOf?_eq_head? h, head?_eq_some_iff_of_pairwise_lt
      ((pairwise_childrenOf a).filter _), hmem]
    exact (and_iff_right h).symm
  · simp [directChildOf?_eq_none h, h]

theorem directChildOf?_eq_none_iff :
    (ofTree t).directChildOf? id a = none ↔
      a ∉ (ofTree t).ancestors id ∨ ∀ d, (ofTree t).parent? d = some a → d < id := by
  by_cases h : a ∈ (ofTree t).ancestors id
  · rw [directChildOf?_eq_head? h, List.head?_eq_none_iff, List.filter_eq_nil_iff,
      or_iff_right (not_not_intro h)]
    simp only [mem_childrenOf_iff, decide_eq_true_eq, Nat.not_le]
  · simp [directChildOf?_eq_none h, h]

end LinkedTree

namespace State

variable {t : Tree Nat} {s : State}

theorem childrenAhead_eq_filter_ahead (hs : s.WellScoped (.ofTree t)) :
    s.childrenAhead (.ofTree t) =
      (s.ahead t).filter ((LinkedTree.ofTree t).parent? · = some s.root) := by
  refine (pairwise_childrenAhead t s).eq_of_mem_iff ((pairwise_ahead t s).filter _) fun id => ?_
  rw [mem_childrenAhead_iff, List.mem_filter, mem_ahead_iff hs, decide_eq_true_iff]
  exact ⟨fun h => ⟨reaches_of_parent? h.1 h.2, h.1⟩, fun h => ⟨h.2, h.1.2⟩⟩

/-- The candidates among the direct children are the children of the scope among all candidates, in
their order: every child that is not before the cursor. A move to a child leads to the least that is
not before the place it starts from, if that place lies inside. -/
theorem directChildren_eq_filter_within (hs : s.WellScoped (.ofTree t)) :
    let tree := LinkedTree.ofTree t
    let direct := (s.directChildren tree : Search Event Nat).items
    direct = (s.within tree : Search Event Nat).items.filter (tree.parent? · = some s.root) ∧
    (∀ id, id ∈ direct ↔ tree.parent? id = some s.root ∧ ∃ c, s.cursor = some c ∧ c ≤ id) ∧
    ∀ x p,
      (∀ c, tree.directChildOf? x p = some c ↔
        p ∈ tree.ancestors x ∧ IsLeast {d | tree.parent? d = some p ∧ x ≤ d} c) ∧
      (tree.directChildOf? x p = none ↔
        p ∉ tree.ancestors x ∨ ∀ d, tree.parent? d = some p → d < x) := by
  intro tree direct
  have hdirect : direct = s.childrenAhead tree := items_directChildren hs
  refine ⟨?_, fun id => ?_, fun x p => ⟨fun c => ?_, ?_⟩⟩
  · rw [hdirect, items_within hs, childrenAhead_eq_filter_ahead hs]
  · rw [hdirect, mem_childrenAhead_iff]
  · exact LinkedTree.directChildOf?_eq_some_iff
  · exact LinkedTree.directChildOf?_eq_none_iff

/-- From inside the first of three children, the last two are left. -/
theorem directChildren_inside_first_child :
    let t : Tree Nat := .node 0 [.node 1 [.node 2 [], .node 3 []], .node 4 [.node 5 []], .node 6 []]
    let tree := LinkedTree.ofTree t
    let s : State := ⟨0, some 3, .empty⟩
    s.WellScoped tree ∧ (s.within tree : Search Event Nat).items = [3, 4, 5, 6] ∧
      (s.directChildren tree : Search Event Nat).items =
        [3, 4, 5, 6].filter (tree.parent? · = some s.root) ∧
      (s.directChildren tree : Search Event Nat).items = [4, 6] := by
  intro t tree s
  have hs : s.WellScoped tree := by
    rintro c ⟨⟩
    decide +kernel
  have hwithin : (s.within tree : Search Event Nat).items = [3, 4, 5, 6] := by decide +kernel
  have hdirect := (directChildren_eq_filter_within hs).1
  rw [hwithin] at hdirect
  exact ⟨hs, hwithin, hdirect, hdirect.trans (by decide +kernel)⟩

end State

end TreeQuery
