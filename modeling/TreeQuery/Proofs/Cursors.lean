import TreeQuery.Proofs.Intervals
import TreeQuery.Proofs.Position

/-! The order of cursors, a cursor of none being the last: moves to a child of the scope go forward,
and of two cursors the later one is the maximum. -/

namespace TreeQuery

namespace State

variable {t : Tree Nat} {s u r before : State}

/-- The cursor has not gone back. -/
def Follows (r u : State) : Prop := ∀ d, r.cursor = some d → ∃ c, u.cursor = some c ∧ c ≤ d

theorem Follows.refl (s : State) : s.Follows s := fun d hd => ⟨d, hd, Nat.le_refl d⟩

theorem Follows.trans (h : r.Follows u) (h' : u.Follows s) : r.Follows s := by
  intro d hd
  obtain ⟨c, hc, hcd⟩ := h d hd
  obtain ⟨b, hb, hbc⟩ := h' c hc
  exact ⟨b, hb, Nat.le_trans hbc hcd⟩

theorem Advances.follows {lt : LinkedTree} (h : s.Advances lt r) : r.Follows s :=
  fun d hd => (h.cursor d hd).2

theorem follows_align (h : r.WellScoped (.ofTree t)) : (r.align (.ofTree t)).Follows r :=
  fun _ hd => (parent?_of_aligned? h hd).2

@[simp] theorem root_notBefore (t : LinkedTree) (s other : State) :
    (s.notBefore t other).root = s.root := by
  rw [notBefore]
  split
  · split <;> rfl
  · rfl

@[simp] theorem startAt_notBefore (t : LinkedTree) (s other start : State) :
    (s.notBefore t other).startAt start = s.startAt start := by
  rw [notBefore]
  split
  · split <;> rfl
  · rfl

/-- The cursor is an id, or it lies past all of them. -/
def InTree (t : LinkedTree) (s : State) : Prop := ∀ c, s.cursor = some c → c < t.size

theorem WellScoped.inTree (h : s.WellScoped (.ofTree t)) : s.InTree (.ofTree t) := by
  intro c hc
  rw [LinkedTree.size_ofTree]
  exact LinkedTree.lt_size_of_mem_ancestors (h c hc)

theorem notBefore_eq (hr : r.InTree (.ofTree t)) (hu : u.InTree (.ofTree t)) :
    r.notBefore (.ofTree t) u =
      { r with cursor := r.cursor.bind fun a => u.cursor.map fun b => max a b } := by
  cases hrc : r.cursor with
  | none => simp [notBefore, hrc]
  | some mine =>
    cases huc : u.cursor with
    | none => simp [notBefore, hrc, huc]
    | some theirs =>
      have hcompare := LinkedTree.compare_eq (t := t) (LinkedTree.size_ofTree ▸ hr mine hrc)
        (LinkedTree.size_ofTree ▸ hu theirs huc)
      simp only [notBefore, hrc, huc, hcompare, Option.bind_some, Option.map_some]
      split
      next hgt =>
        have := Nat.compare_eq_gt.mp (Ordering.isGT_iff_eq_gt.mp hgt)
        rw [Nat.max_eq_left (by omega), ← hrc]
      next hle =>
        have := mt Nat.compare_eq_gt.mpr (mt Ordering.isGT_iff_eq_gt.mpr hle)
        rw [Nat.max_eq_right (by omega)]

theorem exists_of_cursor_notBefore (hr : r.InTree (.ofTree t)) (hu : u.InTree (.ofTree t)) {d : Nat}
    (hd : (r.notBefore (.ofTree t) u).cursor = some d) :
    ∃ a b, r.cursor = some a ∧ u.cursor = some b ∧ max a b = d := by
  rw [notBefore_eq hr hu] at hd
  obtain ⟨a, ha, hd⟩ := Option.bind_eq_some_iff.mp hd
  obtain ⟨b, hb, hd⟩ := Option.map_eq_some_iff.mp hd
  exact ⟨a, b, ha, hb, hd⟩

theorem InTree.notBefore (hr : r.InTree (.ofTree t)) (hu : u.InTree (.ofTree t)) :
    (r.notBefore (.ofTree t) u).InTree (.ofTree t) := by
  intro c hc
  obtain ⟨a, b, ha, hb, rfl⟩ := exists_of_cursor_notBefore hr hu hc
  exact Nat.max_lt.mpr ⟨hr a ha, hu b hb⟩

theorem notBefore_assoc {v : State} (hr : r.InTree (.ofTree t)) (hu : u.InTree (.ofTree t))
    (hv : v.InTree (.ofTree t)) :
    (r.notBefore (.ofTree t) u).notBefore (.ofTree t) v =
      r.notBefore (.ofTree t) (u.notBefore (.ofTree t) v) := by
  rw [notBefore_eq (hr.notBefore hu) hv, notBefore_eq hr (hu.notBefore hv), notBefore_eq hr hu,
    notBefore_eq hu hv]
  cases r.cursor <;> cases u.cursor <;> cases v.cursor <;> simp [Nat.max_assoc]

/-- What goes back to the start and then past what was covered is where it was. -/
theorem startAt_notBefore_self (hs : s.WellScoped (.ofTree t))
    (hb : s.Advances (.ofTree t) before) :
    (before.startAt s).notBefore (.ofTree t) before = before := by
  rw [notBefore_eq (hb.startAt hs).wellScoped.inTree hb.wellScoped.inTree]
  obtain ⟨root, cursor, bindings⟩ := before
  cases cursor with
  | none => simp [startAt]
  | some d =>
    obtain ⟨_, c, hc, hcd⟩ := hb.cursor d rfl
    simp [startAt, hc, hcd]

theorem cursor_notBefore (hr : r.WellScoped (.ofTree t)) (hu : u.WellScoped (.ofTree t)) :
    (r.notBefore (.ofTree t) u).cursor = r.cursor.bind fun a => u.cursor.map fun b => max a b := by
  rw [notBefore_eq hr.inTree hu.inTree]

theorem cursor_notBefore_left_comm {v : State} (hr : s.Advances (.ofTree t) r)
    (hu : s.Advances (.ofTree t) u) (hv : s.Advances (.ofTree t) v) :
    (r.notBefore (.ofTree t) (u.notBefore (.ofTree t) v)).cursor =
      (u.notBefore (.ofTree t) (r.notBefore (.ofTree t) v)).cursor := by
  rw [cursor_notBefore hr.wellScoped (hu.notBefore hv).wellScoped,
    cursor_notBefore hu.wellScoped (hr.notBefore hv).wellScoped,
    cursor_notBefore hr.wellScoped hv.wellScoped, cursor_notBefore hu.wellScoped hv.wellScoped]
  cases r.cursor <;> cases u.cursor <;> cases v.cursor <;> simp [Nat.max_left_comm]

theorem follows_notBefore (hr : r.WellScoped (.ofTree t)) (hu : u.WellScoped (.ofTree t)) :
    (r.notBefore (.ofTree t) u).Follows r ∧ (r.notBefore (.ofTree t) u).Follows u := by
  constructor
  · intro d hd
    obtain ⟨a, b, ha, _, hd⟩ := exists_of_cursor_notBefore hr.inTree hu.inTree hd
    exact ⟨a, ha, by omega⟩
  · intro d hd
    obtain ⟨a, b, _, hb, hd⟩ := exists_of_cursor_notBefore hr.inTree hu.inTree hd
    exact ⟨b, hb, by omega⟩

end State

end TreeQuery
