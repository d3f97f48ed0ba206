import TreeQuery.Proofs.Intervals
import TreeQuery.Proofs.Position

/-! The candidates of a state are all that its scope has from the cursor on, or all the children of
the scope from there, in the order of their ids. -/

namespace TreeQuery

/-- A walk that steps along a list gives what is left of the list. -/
theorem Search.items_iterate_drop {ε α : Type} {next : α → Option α} {l : List α}
    (hnext : ∀ (i : Nat) (a : α), l[i]? = some a → next a = l[i + 1]?) {bound i : Nat}
    (hbound : l.length ≤ i + bound) : (iterate next bound l[i]? : Search ε α).items = l.drop i := by
  induction bound generalizing i with
  | zero =>
    rw [List.drop_of_length_le (by omega)]
    rfl
  | succ bound ih =>
    cases h : l[i]? with
    | none =>
      rw [List.drop_of_length_le (List.getElem?_eq_none_iff.mp h)]
      rfl
    | some a =>
      obtain ⟨hlt, rfl⟩ := List.getElem?_eq_some_iff.mp h
      rw [iterate, items, hnext i _ h, ih (by omega), List.drop_eq_getElem_cons hlt]

namespace State

/-- The ids of the scope that are not before the cursor. -/
def ahead (t : Tree Nat) (s : State) : List Nat :=
  match s.cursor with
  | none => []
  | some c => List.range' c (t.stop s.root - c)

/-- The children of the scope that are not before the cursor. -/
def childrenAhead (t : LinkedTree) (s : State) : List Nat :=
  match s.cursor with
  | none => []
  | some c => (t.childrenOf s.root).toList.filter (c ≤ ·)

variable {t : Tree Nat} {s : State} {id : Nat}

theorem items_within {ε : Type} (hs : s.WellScoped (.ofTree t)) :
    (s.within (.ofTree t) : Search ε Nat).items = s.ahead t := by
  rw [within, LinkedTree.within, ahead, LinkedTree.size_ofTree]
  cases hc : s.cursor with
  | none => cases t.size <;> rfl
  | some c =>
    have hin := hs c hc
    obtain ⟨hroot, hstop⟩ := LinkedTree.mem_ancestors_iff_lt_stop.mp hin
    have hsize := LinkedTree.stop_le_size (t := t)
      (Nat.lt_trans hroot (LinkedTree.lt_size_of_mem_ancestors hin))
    have hnext : ∀ (i id : Nat), (List.range' c (t.stop s.root - c))[i]? = some id →
        (LinkedTree.ofTree t).nextWithin? id s.root =
          (List.range' c (t.stop s.root - c))[i + 1]? := by
      intro i id hid
      obtain ⟨hi, rfl⟩ := List.getElem?_eq_some_iff.mp hid
      rw [List.length_range'] at hi
      rw [List.getElem_range', LinkedTree.nextWithin?_of_mem_ancestors
        (LinkedTree.mem_ancestors_iff_lt_stop.mpr ⟨by omega, by omega⟩)]
      split
      · rw [List.getElem?_range' (by omega), Nat.add_assoc, Nat.mul_add]
      · rw [List.getElem?_eq_none (by rw [List.length_range']; omega)]
    have hfirst : some c = (List.range' c (t.stop s.root - c))[0]? := by
      rw [List.getElem?_range' (by omega)]
      rfl
    rw [hfirst, Search.items_iterate_drop hnext (by rw [List.length_range']; omega), ← hfirst]
    rfl

theorem items_directChildren {ε : Type} (hs : s.WellScoped (.ofTree t)) :
    (s.directChildren (.ofTree t) : Search ε Nat).items = s.childrenAhead (.ofTree t) := by
  rw [directChildren, LinkedTree.neighbors, aligned?, childrenAhead, LinkedTree.size_ofTree]
  cases hc : s.cursor with
  | none => cases t.size <;> rfl
  | some c =>
    obtain ⟨i, hi, hdrop⟩ := LinkedTree.exists_directChildOf?_eq (hs c hc)
    have hnext : ∀ (j id : Nat), ((LinkedTree.ofTree t).childrenOf s.root).toList[j]? = some id →
        (LinkedTree.ofTree t).directNeighbor? id =
          ((LinkedTree.ofTree t).childrenOf s.root).toList[j + 1]? := by
      intro j id hid
      rw [Array.getElem?_toList] at hid ⊢
      exact LinkedTree.directNeighbor?_child hid
    have hlength := LinkedTree.length_childrenOf_le (t := t) s.root
    rw [Option.bind_some, hi, ← Array.getElem?_toList,
      Search.items_iterate_drop hnext (by omega), ← hdrop]

theorem mem_ahead_iff (hs : s.WellScoped (.ofTree t)) :
    id ∈ s.ahead t ↔ s.Reaches (.ofTree t) id := by
  rw [ahead, Reaches, LinkedTree.mem_ancestors_iff_lt_stop]
  cases hc : s.cursor with
  | none => simp
  | some c =>
    have := (LinkedTree.mem_ancestors_iff_lt_stop.mp (hs c hc)).1
    simp only [List.mem_range'_1, Option.some.injEq, exists_eq_left']
    omega

theorem mem_childrenAhead_iff :
    id ∈ s.childrenAhead (.ofTree t) ↔
      (LinkedTree.ofTree t).parent? id = some s.root ∧ ∃ c, s.cursor = some c ∧ c ≤ id := by
  rw [childrenAhead]
  cases hc : s.cursor with
  | none => simp
  | some c => simp only [List.mem_filter, LinkedTree.mem_childrenOf_iff, decide_eq_true_eq,
      Option.some.injEq, exists_eq_left']

theorem pairwise_ahead (t : Tree Nat) (s : State) : (s.ahead t).Pairwise (· < ·) := by
  rw [ahead]
  split
  · exact .nil
  · exact List.pairwise_lt_range'

theorem pairwise_childrenAhead (t : Tree Nat) (s : State) :
    (s.childrenAhead (.ofTree t)).Pairwise (· < ·) := by
  rw [childrenAhead]
  split
  · exact .nil
  · exact (LinkedTree.pairwise_childrenOf _).filter _

end State

namespace Scene

variable {scene : Scene} {t : Tree Nat} {s : State}

theorem pairwise_candidates (hscene : scene.tree = .ofTree t) (hs : s.WellScoped (.ofTree t))
    (f : Filter) : (scene.candidates f s).items.Pairwise (· < ·) := by
  rw [candidates, hscene]
  split
  · rw [State.items_directChildren hs]
    exact State.pairwise_childrenAhead t s
  · rw [State.items_within hs]
    exact State.pairwise_ahead t s

theorem mem_candidates_iff (hscene : scene.tree = .ofTree t) (hs : s.WellScoped (.ofTree t))
    {f : Filter} {id : Nat} :
    id ∈ (scene.candidates f s).items ↔
      s.Reaches (.ofTree t) id ∧ (f.direct → (LinkedTree.ofTree t).parent? id = some s.root) := by
  rw [candidates, hscene]
  split
  next hdirect =>
    rw [State.items_directChildren hs, State.mem_childrenAhead_iff]
    exact ⟨fun h => ⟨State.reaches_of_parent? h.1 h.2, fun _ => h.1⟩,
      fun h => ⟨h.2 hdirect, h.1.2⟩⟩
  next hdirect =>
    rw [State.items_within hs, State.mem_ahead_iff hs]
    exact ⟨fun h => ⟨h, fun hd => absurd hd hdirect⟩, And.left⟩

end Scene

end TreeQuery
