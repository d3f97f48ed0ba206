import TreeQuery.Proofs.CaptureFree
import TreeQuery.Proofs.Cursors
import TreeQuery.Proofs.Places

/-! What a result has bound lies behind its cursor. A single query moves past the whole subtree of
its node, and every container keeps that for what its children bind, with one exception: a child of
an `any` or `optional` container searches from the start again, and its results have its own cursor,
whatever the children before it have bound. -/

namespace TreeQuery

namespace Query

mutual

/-- In every `any` or `optional` container only the last child captures. What a single query asks of
the nodes below does not matter. -/
def capturesLast : Query → Bool
  | single _ _ => true
  | container mode children =>
    (mode.requiresAll || !anyCaptures children.dropLast) && capturesLastAll children

def capturesLastAll : List Query → Bool
  | [] => true
  | q :: qs => q.capturesLast && capturesLastAll qs

end

theorem capturesLastAll_iff {qs : List Query} :
    capturesLastAll qs ↔ ∀ q ∈ qs, q.capturesLast := by
  induction qs with
  | nil => simp [capturesLastAll]
  | cons q qs ih => simp [capturesLastAll, ih]

end Query

namespace State

variable {t : Tree Nat} {s u r : State}

/-- The whole subtree of an id lies before the cursor. -/
def Passed (t : Tree Nat) (s : State) (id : Nat) : Prop := ∀ d, s.cursor = some d → t.stop id ≤ d

theorem Passed.mono {id : Nat} (h : u.Passed t id) (hr : r.Follows u) : r.Passed t id := by
  intro d hd
  obtain ⟨c, hc, hle⟩ := hr d hd
  exact Nat.le_trans (h c hc) hle

/-- It has moved on, with all that it has bound anew, whole subtrees, behind its cursor. -/
structure Clears (t : Tree Nat) (s r : State) : Prop where
  advances : s.Advances (.ofTree t) r
  passed : ∀ name n, r.bindings.get? name = some n → s.bindings.get? name = some n ∨
    ∃ id, s.Reaches (.ofTree t) id ∧ (LinkedTree.ofTree t).node id = n ∧ r.Passed t id

theorem Advances.clears (h : s.Advances (.ofTree t) r) (hbindings : r.bindings = s.bindings) :
    s.Clears t r :=
  ⟨h, fun _ _ hn => .inl (hbindings ▸ hn)⟩

theorem WellScoped.clears (h : s.WellScoped (.ofTree t)) : s.Clears t s := h.advances.clears rfl

/-- What is behind the cursor stays there as long as the cursor does not go back. -/
theorem Clears.passed_of_follows (h : s.Clears t u) (hr : r.Follows u) {name : String} {n : Nat}
    (hn : u.bindings.get? name = some n) : s.bindings.get? name = some n ∨
      ∃ id, s.Reaches (.ofTree t) id ∧ (LinkedTree.ofTree t).node id = n ∧ r.Passed t id := by
  refine (h.passed name n hn).imp_right ?_
  rintro ⟨id, hid, hnode, hpassed⟩
  exact ⟨id, hid, hnode, hpassed.mono hr⟩

theorem Clears.trans (h : s.Clears t u) (h' : u.Clears t r) : s.Clears t r where
  advances := h.advances.trans h'.advances
  passed := by
    intro name n hn
    rcases h'.passed name n hn with hn | ⟨id, hid, hnode, hpassed⟩
    · exact h.passed_of_follows h'.advances.follows hn
    · exact .inr ⟨id, h.advances.reaches hid, hnode, hpassed⟩

theorem Clears.align (h : s.Clears t r) : s.Clears t (r.align (.ofTree t)) where
  advances := h.advances.align
  passed := fun _ _ hn => h.passed_of_follows (follows_align h.advances.wellScoped) hn

theorem Clears.notBefore (hs : s.WellScoped (.ofTree t)) (h : s.Clears t u)
    (h' : (u.startAt s).Clears t r) : s.Clears t (r.notBefore (.ofTree t) u) where
  advances := ((h.advances.startAt hs).trans h'.advances).notBefore h.advances
  passed := by
    obtain ⟨hr, hu⟩ := follows_notBefore h'.advances.wellScoped h.advances.wellScoped
    intro name n hn
    rw [bindings_notBefore] at hn
    rcases h'.passed name n hn with hn | ⟨id, hid, hnode, hpassed⟩
    · exact h.passed_of_follows hu hn
    · exact .inr ⟨id, (h.advances.startAt hs).reaches hid, hnode, hpassed.mono hr⟩

theorem Reaches.clears {id : Nat} (hid : s.Reaches (.ofTree t) id) {capture : Option String}
    (h : (s.enter (.ofTree t) capture id).Advances (.ofTree t) r) :
    s.Clears t ((s.past (.ofTree t) id).withBindings r.bindings) where
  advances := hid.advances h
  passed := by
    have hpast : (s.past (.ofTree t) id).Passed t id :=
      fun d hd => (LinkedTree.neighborWithin?_spec hid.1 hd).2
    intro name n hn
    rcases h.bindings name n hn with hn | ⟨i, hi, hnode⟩
    · simp only [enter, Bindings.get?_bind] at hn
      split at hn
      · exact .inr ⟨id, hid, Option.some.inj hn, hpast⟩
      · exact .inl hn
    · refine .inr ⟨i, hid.of_enter hi, hnode, fun d hd => ?_⟩
      exact Nat.le_trans (LinkedTree.stop_ancestor hi.1).2 (hpast d hd)

end State

namespace Scene

variable {scene : Scene} {t : Tree Nat} {s r : State}

/-- Children that capture nothing leave only the start to start from. -/
theorem mem_accumulated_concat {parts : List Find} {part : Find}
    (hparts : ∀ r ∈ accumulated parts s, r.root = s.root ∧ r.bindings = s.bindings)
    (hr : r ∈ accumulated (parts ++ [part]) s) : r ∈ accumulated parts s ∨ r ∈ part s := by
  rw [accumulated_concat, widened, List.mem_eraseDups, List.mem_append] at hr
  refine hr.imp_right fun hr => ?_
  obtain ⟨seed, hseed, hr⟩ := List.mem_flatMap.mp hr
  have hself : seed = s := by
    rcases List.mem_cons.mp (List.mem_eraseDups.mp hseed) with rfl | hseed
    · rfl
    · obtain ⟨earlier, he, rfl⟩ := List.mem_map.mp hseed
      obtain ⟨hroot, hbindings⟩ := hparts earlier he
      cases s
      simp_all [State.startAt]
  rwa [hself] at hr

theorem clears_of_mem_accumulated (hscene : scene.tree = .ofTree t) {children : List Query}
    (hlast : Query.anyCaptures children.dropLast = false) (hs : s.WellScoped (.ofTree t))
    (hchildren : ∀ q ∈ children, ∀ r ∈ scene.results q s, s.Clears t r)
    (hr : r ∈ accumulated (children.map scene.results) s) : s.Clears t r := by
  rcases List.eq_nil_or_concat children with rfl | ⟨front, last, rfl⟩
  · simp [accumulated] at hr
  · rw [List.concat_eq_append, List.dropLast_concat, Query.anyCaptures_eq_false_iff] at hlast
    rw [List.concat_eq_append, List.map_append, List.map_singleton] at hr
    have hfront : ∀ r ∈ accumulated (front.map scene.results) s,
        s.Advances (.ofTree t) r ∧ r.bindings = s.bindings := by
      refine forall_mem_accumulated
        (P := fun r => s.Advances (.ofTree t) r ∧ r.bindings = s.bindings)
        (List.forall_mem_map.mpr ?_) ⟨hs.advances, rfl⟩ fun r hr => ⟨hr.1.startAt hs, hr.2⟩
      intro q hq u hu r hr
      exact ⟨hu.1.trans (advances_of_mem_results hscene q hu.1.wellScoped hr),
        (bindings_of_mem_results (hlast q hq) hr).trans hu.2⟩
    rcases mem_accumulated_concat (fun r hr => ⟨(hfront r hr).1.root_eq, (hfront r hr).2⟩) hr
      with hr | hr
    · exact (hfront r hr).1.clears (hfront r hr).2
    · exact hchildren last (by simp) r hr

theorem clears_of_mem_results (hscene : scene.tree = .ofTree t) (q : Query) (hq : q.capturesLast)
    (hs : s.WellScoped (.ofTree t)) (hr : r ∈ scene.results q s) : s.Clears t r := by
  induction q generalizing s r with
  | single f nested ih =>
    obtain ⟨id, hid, _, x, hx, rfl⟩ := exists_of_mem_results_single hr
    rw [hscene] at hx ⊢
    exact (reaches_of_mem_candidates hscene hs hid).clears
      (advances_of_mem_results hscene nested (State.enter_wellScoped id f.capture) hx)
  | container mode children ih =>
    rw [Query.capturesLast, Bool.and_eq_true, Query.capturesLastAll_iff] at hq
    have hstep : ∀ q ∈ children, ∀ u, s.Clears t u → ∀ r ∈ scene.results q u, s.Clears t r :=
      fun q hmem u hu r hr => hu.trans (ih q hmem (hq.2 q hmem) hu.advances.wellScoped hr)
    refine forall_mem_results_container hs.clears hstep ?_ (fun r hr => hscene ▸ hr.align)
      (fun hmode => ?_) r hr
    · intro q hmem before hb r hr
      obtain ⟨found, hf, rfl⟩ := List.mem_map.mp hr
      rw [hscene]
      exact hb.notBefore hs (ih q hmem (hq.2 q hmem) (hb.advances.startAt hs).wellScoped hf)
    · have hlast : Query.anyCaptures children.dropLast = false := by simpa [hmode] using hq.1
      exact fun r hr => clears_of_mem_accumulated hscene hlast hs
        (fun q hmem r hr => ih q hmem (hq.2 q hmem) hs hr) hr

end Scene

/-- Results are positioned past what they have consumed, if of the children of an `any` or
`optional` container only the last captures: each node newly bound ends before the cursor. So what
the children at the end of an ordered container bind comes after all that those before them have
bound. -/
theorem Matcher.evaluate_consumes (m : Matcher) (n : Node) {q : Query} (hq : q.capturesLast)
    {s r : State} (hs : s.WellScoped (.ofTree n.places))
    (hr : r ∈ ((m.scene (.ofNode n) (.ofTree n.places)).evaluate q s).items) :
    (∀ name id, r.bindings.get? name = some id → s.bindings.get? name ≠ some id →
      ∀ d, r.cursor = some d → n.places.stop id ≤ d) ∧
    ∀ front back, q = .container .ordered (front ++ back) →
      ∃ u ∈ ((m.scene (.ofNode n) (.ofTree n.places)).evaluate (.container .ordered front) s).items,
        r ∈ ((m.scene (.ofNode n) (.ofTree n.places)).evaluate (.container .ordered back) u).items ∧
        ∀ name id name' id', u.bindings.get? name = some id → s.bindings.get? name ≠ some id →
          r.bindings.get? name' = some id' → u.bindings.get? name' ≠ some id' →
            n.places.stop id ≤ id' := by
  let scene := m.scene (.ofNode n) (.ofTree n.places)
  have hnode {u : State} {id : Nat} (hid : u.Reaches (.ofTree n.places) id) :
      scene.tree.node id = id := LinkedTree.node_places_of_mem_ancestors hid.1
  have hbehind {q : Query} (hq : q.capturesLast) {r : State} (hr : r ∈ scene.results q s) :
      ∀ name id, r.bindings.get? name = some id → s.bindings.get? name ≠ some id →
        ∀ d, r.cursor = some d → n.places.stop id ≤ d := by
    intro name id hn hnew
    obtain ⟨i, hi, he, hstop⟩ :=
      ((Scene.clears_of_mem_results rfl q hq hs hr).passed name id hn).resolve_left hnew
    obtain rfl : i = id := (hnode hi).symm.trans he
    exact hstop
  refine ⟨hbehind hq hr, ?_⟩
  rintro front back rfl
  have hfront : (Query.container .ordered front).capturesLast := by
    simp only [Query.capturesLast, Bool.and_eq_true, Query.capturesLastAll_iff] at hq ⊢
    exact ⟨rfl, fun q hmem => hq.2 q (List.mem_append_left _ hmem)⟩
  change r ∈ scene.results _ s at hr
  rw [Scene.results_ordered, List.map_append, mem_chain_append_iff, ← Scene.results_ordered] at hr
  obtain ⟨u, hu, hr⟩ := hr
  rw [← Scene.results_ordered] at hr
  refine ⟨u, hu, hr, fun name id name' id' hn hnew hn' hnew' => ?_⟩
  have hwell := (Scene.advances_of_mem_results rfl _ hs hu).wellScoped
  obtain ⟨i, hi, he⟩ :=
    ((Scene.advances_of_mem_results rfl _ hwell hr).bindings name' id' hn').resolve_left hnew'
  obtain rfl : i = id' := (hnode hi).symm.trans he
  obtain ⟨c, hc, hle⟩ := hi.2
  exact Nat.le_trans (hbehind hfront hu name id hn hnew c hc) hle

/-- The second child of an `any` container captures, the first does not. -/
theorem Matcher.evaluate_consumes_last_child :
    let n : Node := .addChildren (.ofType "root") [.ofType "b", .ofType "c", .ofType "a"]
    let scene := ({} : Matcher).scene (.ofNode n) (.ofTree n.places)
    let b : Query := .container .any
      [.leaf { type := some "a" }, .leaf { type := some "b", capture := some "B" }]
    let c : Query := .leaf { type := some "c", capture := some "C" }
    let q : Query := .container .ordered ([b] ++ [c])
    let s : State := .initial scene.tree
    let r : State := ⟨0, some 3, .ofList [("B", 1), ("C", 2)]⟩
    q.capturesLast ∧ s.WellScoped scene.tree ∧ r ∈ (scene.evaluate q s).items ∧
      n.places.stop 1 ≤ 3 ∧ n.places.stop 2 ≤ 3 ∧
      ∃ u ∈ (scene.evaluate (.container .ordered [b]) s).items,
        r ∈ (scene.evaluate (.container .ordered [c]) u).items := by
  intro n scene b c q s r
  have hq : q.capturesLast := by decide +kernel
  have hs : s.WellScoped scene.tree := State.initial_wellScoped
  have hr : r ∈ (scene.evaluate q s).items := by
    rw [Scene.mem_evaluate_iff]
    decide +kernel
  obtain ⟨hbehind, hordered⟩ := Matcher.evaluate_consumes {} n hq hs hr
  obtain ⟨u, hu, hback, _⟩ := hordered [b] [c] rfl
  exact ⟨hq, hs, hr, hbehind "B" 1 rfl (by decide +kernel) 3 rfl,
    hbehind "C" 2 rfl (by decide +kernel) 3 rfl, u, hu, hback⟩

/-- With both children capturing, the second puts the cursor back before what the first has bound,
and a query that follows in order matches before it. -/
theorem Matcher.any_goes_back :
    let n : Node := .addChildren (.ofType "root") [.ofType "b", .ofType "c", .ofType "a"]
    let m : Matcher := {}
    let scene := m.scene (.ofNode n) (.ofTree n.places)
    let both : Query := .container .any [.leaf { type := some "a", capture := some "A" },
      .leaf { type := some "b", capture := some "B" }]
    let c : Query := .leaf { type := some "c", capture := some "C" }
    ⟨0, some 2, .ofList [("A", 3), ("B", 1)]⟩ ∈
        (scene.evaluate both (.initial scene.tree)).items ∧
      2 < n.places.stop 3 ∧
      (m.search (.container .ordered [both, c]) (.ofNode n)).items =
        [.ofList [("B", 1), ("C", 2)], .ofList [("A", 3), ("B", 1), ("C", 2)]] := by
  intro n m scene both c
  refine ⟨?_, by decide +kernel, ?_⟩
  · rw [Scene.mem_evaluate_iff]
    decide +kernel
  · rw [Matcher.items_search_ofNode, Scene.results_eq_find]
    decide +kernel

end TreeQuery
