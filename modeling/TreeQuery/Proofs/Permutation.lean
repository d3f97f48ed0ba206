import TreeQuery.Proofs.Cursors
import TreeQuery.Proofs.Merging
import TreeQuery.Proofs.Places

/-! The order of the children of an unordered container. All of them start at the same place, so
that two neighbours that only add to what is bound before them can change places; the later of all
their cursors stays the same. -/

namespace TreeQuery

namespace Scene

variable {scene : Scene} {t : Tree Nat} {s before r x y : State} {p q : Query}

/-- What a child of an unordered container finds after another one has found `x`. -/
theorem mem_results_after_iff (hscene : scene.tree = .ofTree t) (hs : s.WellScoped (.ofTree t))
    (hb : s.Advances (.ofTree t) before) (hp : Cumulative (scene.results p))
    (hq : Cumulative (scene.results q)) (hx : x ∈ scene.results p (before.startAt s)) :
    y ∈ scene.results q ((x.notBefore scene.tree before).startAt s) ↔
      ∃ z ∈ scene.results q (before.startAt s), x.bindings.Compatible z.bindings ∧
        y = z.given x.bindings := by
  have hstart : (before.startAt s).WellScoped (.ofTree t) := (hb.startAt hs).wellScoped
  have hroot : x.root = before.root := (advances_of_mem_results hscene p hstart hx).root_eq
  have hle : before.bindings ≤ x.bindings := hp.le (before.startAt s) x hx
  have hgiven : (x.notBefore scene.tree before).startAt s =
      (before.startAt s).given x.bindings := by
    rw [State.startAt_notBefore]
    simp [State.startAt, State.given, State.withBindings, hroot, Bindings.union_eq_left_of_le hle]
  rw [hgiven]
  exact hq.mem_given_iff (before.startAt s) x.bindings (Bindings.compatible_of_le hle) y

theorem exists_mem_anywhere_swap (hscene : scene.tree = .ofTree t) (hs : s.WellScoped (.ofTree t))
    (hb : s.Advances (.ofTree t) before) (hp : Cumulative (scene.results p))
    (hq : Cumulative (scene.results q)) {u : State}
    (hu : u ∈ scene.anywhere s (scene.results p) before)
    (hr : r ∈ scene.anywhere s (scene.results q) u) :
    ∃ v ∈ scene.anywhere s (scene.results q) before,
      r ∈ scene.anywhere s (scene.results p) v := by
  obtain ⟨x, hx, rfl⟩ := List.mem_map.mp hu
  obtain ⟨y, hy, rfl⟩ := List.mem_map.mp hr
  obtain ⟨z, hz, hxz, rfl⟩ := (mem_results_after_iff hscene hs hb hp hq hx).mp hy
  have hxAgain : x.given z.bindings ∈
      scene.results p ((z.notBefore scene.tree before).startAt s) :=
    (mem_results_after_iff hscene hs hb hq hp hz).mpr ⟨x, hx, hxz.symm, rfl⟩
  refine ⟨_, List.mem_map_of_mem hz, List.mem_map.mpr ⟨_, hxAgain, ?_⟩⟩
  have hsx := advances_of_mem_results_startAt hscene p hs hb hx
  have hsz := advances_of_mem_results_startAt hscene q hs hb hz
  have hplace : (x.notBefore scene.tree (z.notBefore scene.tree before)).SamePlace
      (z.notBefore scene.tree (x.notBefore scene.tree before)) := by
    have hcursor := State.cursor_notBefore_left_comm hsx hsz hb
    rw [hscene]
    exact ⟨by simp [hsx.root_eq, hsz.root_eq], hcursor⟩
  have hunion : z.bindings ∪ x.bindings = x.bindings ∪ z.bindings := hxz.symm.union_comm
  rw [State.notBefore_given, State.notBefore_given]
  exact hplace.given_eq (by simpa using hunion)

/-- The children of an unordered container, begun at `s` and run up to `before`. -/
theorem mem_chain_of_perm (hscene : scene.tree = .ofTree t) (hs : s.WellScoped (.ofTree t))
    {qs qs' : List Query} (hperm : qs.Perm qs')
    (hqs : ∀ q ∈ qs, Cumulative (scene.results q)) (hb : s.Advances (.ofTree t) before)
    (hr : r ∈ chain List.eraseDups (qs.map fun q => scene.anywhere s (scene.results q)) before) :
    r ∈ chain List.eraseDups (qs'.map fun q => scene.anywhere s (scene.results q)) before := by
  induction hperm generalizing before with
  | nil => exact hr
  | cons q _ ih =>
    rw [List.map_cons, mem_chain_cons_iff] at hr ⊢
    obtain ⟨u, hu, hr⟩ := hr
    have hsu : s.Advances (.ofTree t) u := advances_of_mem_anywhere_results hscene q hs hb hu
    exact ⟨u, hu, ih (List.forall_mem_cons.mp hqs).2 hsu hr⟩
  | swap p q rest =>
    obtain ⟨hq, hp, _⟩ := by simpa using hqs
    simp only [List.map_cons, mem_chain_cons_iff] at hr ⊢
    obtain ⟨u, hu, v, hv, hr⟩ := hr
    obtain ⟨w, hw, hv⟩ := exists_mem_anywhere_swap hscene hs hb hq hp hu hv
    exact ⟨w, hw, v, hv, hr⟩
  | trans hperm _ ih ih' =>
    have hqs' := fun q hq => hqs q (hperm.mem_iff.mpr hq)
    exact ih' hqs' hb (ih hqs hb hr)

theorem mem_results_unordered_of_perm (hscene : scene.tree = .ofTree t)
    (hs : s.WellScoped (.ofTree t)) {qs qs' : List Query} (hperm : qs.Perm qs')
    (hqs : ∀ q ∈ qs, Cumulative (scene.results q)) :
    r ∈ scene.results (.container .unordered qs) s ↔
      r ∈ scene.results (.container .unordered qs') s := by
  have hqs' : ∀ q ∈ qs', Cumulative (scene.results q) :=
    fun q hq => hqs q (hperm.mem_iff.mpr hq)
  rw [results_unordered, results_unordered]
  exact ⟨mem_chain_of_perm hscene hs hperm hqs hs.advances,
    mem_chain_of_perm hscene hs hperm.symm hqs' hs.advances⟩

end Scene

namespace Matcher

/-- If nothing is optional and no node is accepted or refused for what is bound, the children of an
unordered container find the same in every order, and have the same matches. -/
theorem evaluate_unordered_perm {m : Matcher} {sub : Subject} (hm : m.IgnoresBindings sub)
    {qs qs' : List Query} (hqs : ∀ q ∈ qs, .optional ∉ q.modes) (hperm : qs.Perm qs') :
    (∀ (t : Tree Nat) (s : State), s.WellScoped (.ofTree t) → ∀ r,
      r ∈ ((m.scene sub (.ofTree t)).evaluate (.container .unordered qs) s).items ↔
        r ∈ ((m.scene sub (.ofTree t)).evaluate (.container .unordered qs') s).items) ∧
    ∀ b, b ∈ (m.search (.container .unordered qs) sub).items ↔
      b ∈ (m.search (.container .unordered qs') sub).items := by
  have hcumulative (t : Tree Nat) : ∀ q ∈ qs, Cumulative ((m.scene sub (.ofTree t)).results q) :=
    fun q hq => Scene.cumulative_results (hm.scene (.ofTree t)) (hqs q hq)
  have hresults (t : Tree Nat) {s r : State} (hs : s.WellScoped (.ofTree t)) :
      r ∈ (m.scene sub (.ofTree t)).results (.container .unordered qs) s ↔
        r ∈ (m.scene sub (.ofTree t)).results (.container .unordered qs') s :=
    Scene.mem_results_unordered_of_perm rfl hs hperm (hcumulative t)
  refine ⟨fun t s hs r => hresults t hs, fun b => ?_⟩
  simp only [items_search, List.mem_eraseDups, List.mem_flatMap, List.mem_map,
    hresults _ State.initial_wellScoped]

/-- A name that is captured at two places, beside an `any` container, all of it from behind. -/
theorem evaluate_unordered_perm_shared_name :
    let n : Node := .addChildren (.ofType "root")
      [.ofType "a", .addChildren (.ofType "b") [.ofType "a"], .ofType "c"]
    let m : Matcher := {}
    let scene := m.scene (.ofNode n) (.ofTree n.places)
    let qs : List Query := [.leaf { type := some "a", capture := some "X" },
      .single { type := some "b", capture := some "P" } (.leaf { capture := some "X" }),
      .container .any [.leaf { type := some "c", capture := some "Y" }]]
    let s : State := { State.initial scene.tree with bindings := .ofList [("Q", 4)] }
    let r : State := ⟨0, none, .ofList [("P", 2), ("Q", 4), ("X", 3), ("Y", 4)]⟩
    (∀ q ∈ qs, .optional ∉ q.modes) ∧ qs.Perm qs.reverse ∧ s.WellScoped scene.tree ∧
      r ∈ (scene.evaluate (.container .unordered qs) s).items ∧
      r ∈ (scene.evaluate (.container .unordered qs.reverse) s).items ∧
      ∀ b, b ∈ (m.search (.container .unordered qs) (.ofNode n)).items ↔
        b ∈ (m.search (.container .unordered qs.reverse) (.ofNode n)).items := by
  intro n m scene qs s r
  have hqs : ∀ q ∈ qs, .optional ∉ q.modes := by
    simp [qs, Query.leaf, Query.empty, Query.modes, Query.modesOf]
  have hperm : qs.Perm qs.reverse := qs.reverse_perm.symm
  have hs : s.WellScoped scene.tree := State.initial_wellScoped
  have hr : r ∈ (scene.evaluate (.container .unordered qs) s).items := by
    rw [Scene.mem_evaluate_iff]
    decide +kernel
  obtain ⟨hsame, hmatches⟩ :=
    evaluate_unordered_perm (plain_ignoresBindings {} false (.ofNode n)) hqs hperm
  exact ⟨hqs, hperm, hs, hr, (hsame n.places s hs r).mp hr, hmatches⟩

end Matcher

end TreeQuery
