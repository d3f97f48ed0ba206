import TreeQuery.Proofs.Moves
import TreeQuery.Proofs.Numbering
import TreeQuery.Proofs.Position
import TreeQuery.Proofs.Subtree

/-! Searching inside a scope is searching the tree of that scope on its own. The two searches go
through the same states, the one in the whole tree at ids moved by the place of the scope. -/

namespace TreeQuery

theorem Search.items_iterate_shift {ε : Type} (next own : Nat → Option Nat) {P : Nat → Prop}
    {c size : Nat} (hlt : ∀ k, P k → k < size)
    (hnext : ∀ k, P k → next (c + k) = (own k).map (c + ·))
    (hown : ∀ k j, P k → own k = some j → P j ∧ k < j) {bound fuel : Nat} {start : Option Nat}
    (hstart : ∀ k, start = some k → P k ∧ size ≤ bound + k ∧ size ≤ fuel + k) :
    (iterate next bound (start.map (c + ·)) : Search ε Nat).items =
      (iterate own fuel start : Search ε Nat).items.map (c + ·) := by
  induction bound generalizing fuel start with
  | zero =>
    cases start with
    | none => cases fuel <;> rfl
    | some k =>
      obtain ⟨hk, hb, _⟩ := hstart k rfl
      have := hlt k hk
      omega
  | succ bound ih =>
    cases start with
    | none => cases fuel <;> rfl
    | some k =>
      obtain ⟨hk, hb, hf⟩ := hstart k rfl
      have hks := hlt k hk
      obtain ⟨fuel, rfl⟩ : ∃ n, fuel = n + 1 := ⟨fuel - 1, by omega⟩
      have hrest : ∀ j, own k = some j → P j ∧ size ≤ bound + j ∧ size ≤ fuel + j := by
        intro j hj
        obtain ⟨hp, hkj⟩ := hown k j hk hj
        exact ⟨hp, by omega, by omega⟩
      rw [Option.map_some, iterate, iterate, items, items, List.map_cons, hnext k hk, ih hrest]

namespace State

/-- The same state in a tree that has the searched one at `c`. -/
def shift (c : Nat) (s : State) : State := ⟨c + s.root, s.cursor.map (c + ·), s.bindings⟩

theorem shift_inj {c : Nat} {s r : State} (h : s.shift c = r.shift c) : s = r := by
  obtain ⟨root, cursor, bindings⟩ := s
  obtain ⟨root', cursor', bindings'⟩ := r
  simp only [shift, State.mk.injEq] at h
  obtain ⟨hroot, hcursor, rfl⟩ := h
  obtain rfl : root = root' := by omega
  obtain rfl : cursor = cursor' := Option.map_injective (fun a b hab => by omega) hcursor
  rfl

section

variable {t u : Tree Nat} {c : Nat} {s r : State} (hu : t.subtrees[c]? = some u)

include hu

theorem shift_enter (capture : Option String) {id : Nat} (hid : id < u.size) :
    (s.shift c).enter (.ofTree t) capture (c + id) =
      (s.enter (.ofTree u) capture id).shift c := by
  simp only [enter, shift, LinkedTree.firstChild?_add hu hid, LinkedTree.node_add hu hid]

theorem shift_past {id : Nat} (hid : s.Reaches (.ofTree u) id) :
    (s.shift c).past (.ofTree t) (c + id) = (s.past (.ofTree u) id).shift c := by
  simp only [past, shift, LinkedTree.neighborWithin?_add hu (.inr hid.1)]

theorem shift_aligned? (hs : s.WellScoped (.ofTree u)) :
    (s.shift c).aligned? (.ofTree t) = (s.aligned? (.ofTree u)).map (c + ·) := by
  cases hc : s.cursor with
  | none => simp [aligned?, shift, hc]
  | some d => simp [aligned?, shift, hc, LinkedTree.directChildOf?_add hu (hs d hc)]

theorem shift_align (hs : s.WellScoped (.ofTree u)) :
    (s.shift c).align (.ofTree t) = (s.align (.ofTree u)).shift c := by
  rw [align, shift_aligned? hu hs]
  rfl

theorem shift_notBefore (hs : s.WellScoped (.ofTree u)) (hr : r.WellScoped (.ofTree u)) :
    (s.shift c).notBefore (.ofTree t) (r.shift c) = (s.notBefore (.ofTree u) r).shift c := by
  cases hsc : s.cursor with
  | none => simp [notBefore, shift, hsc]
  | some mine =>
    cases hrc : r.cursor with
    | none => simp [notBefore, shift, hrc]
    | some theirs =>
      have hcompare := LinkedTree.compare_add hu
        (LinkedTree.lt_size_of_mem_ancestors (hs mine hsc))
        (LinkedTree.lt_size_of_mem_ancestors (hr theirs hrc))
      simp only [notBefore, shift, hsc, hrc, Option.map_some, hcompare]
      split
      · simp [hsc]
      · rfl

theorem items_within_shift {ε : Type} (hs : s.WellScoped (.ofTree u)) :
    ((s.shift c).within (.ofTree t) : Search ε Nat).items =
      (s.within (.ofTree u) : Search ε Nat).items.map (c + ·) := by
  have hsize := LinkedTree.add_size_le hu
  have hbounds : ∀ k, s.cursor = some k → s.root ∈ (LinkedTree.ofTree u).ancestors k ∧
      u.size ≤ t.size + k ∧ u.size ≤ u.size + k :=
    fun k hk => ⟨hs k hk, by omega, by omega⟩
  simp only [within, LinkedTree.within, LinkedTree.size_ofTree, shift]
  exact Search.items_iterate_shift ((LinkedTree.ofTree t).nextWithin? · (c + s.root))
    ((LinkedTree.ofTree u).nextWithin? · s.root)
    (fun k hk => LinkedTree.lt_size_of_mem_ancestors hk)
    (fun k hk => LinkedTree.nextWithin?_add hu hk)
    (fun k j hk hj => LinkedTree.nextWithin?_spec hk hj) hbounds

theorem items_directChildren_shift {ε : Type} (hs : s.WellScoped (.ofTree u)) :
    ((s.shift c).directChildren (.ofTree t) : Search ε Nat).items =
      (s.directChildren (.ofTree u) : Search ε Nat).items.map (c + ·) := by
  have hsize := LinkedTree.add_size_le hu
  simp only [directChildren, LinkedTree.neighbors, LinkedTree.size_ofTree, shift_aligned? hu hs]
  refine Search.items_iterate_shift (LinkedTree.ofTree t).directNeighbor?
    (LinkedTree.ofTree u).directNeighbor?
    (P := fun k => (LinkedTree.ofTree u).parent? k = some s.root)
    (fun k hk => LinkedTree.lt_size_of_mem_ancestors (LinkedTree.parent?_mem_ancestors hk))
    (fun k hk => LinkedTree.directNeighbor?_add hu hk) ?_ ?_
  · intro k j hk hj
    obtain ⟨hparent, rfl⟩ := LinkedTree.directNeighbor?_spec hj
    exact ⟨hparent.trans hk, LinkedTree.lt_stop (LinkedTree.parent?_mem_ancestors hk)⟩
  · intro k hk
    exact ⟨(parent?_of_aligned? hs hk).1, by omega, by omega⟩

end

end State

namespace Scene

/-- `inner` searches on its own the subtree that `outer` has at `c`. -/
structure Inside (outer inner : Scene) (t u : Tree Nat) (c : Nat) : Prop where
  outer_tree : outer.tree = .ofTree t
  inner_tree : inner.tree = .ofTree u
  subtree : t.subtrees[c]? = some u
  acceptance : outer.acceptance = inner.acceptance

namespace Inside

variable {outer inner : Scene} {t u : Tree Nat} {c : Nat} {s : State} {find own : Find}

theorem items_candidates (h : outer.Inside inner t u c) (f : Filter)
    (hs : s.WellScoped (.ofTree u)) :
    (outer.candidates f (s.shift c)).items = (inner.candidates f s).items.map (c + ·) := by
  rw [candidates, candidates, h.outer_tree, h.inner_tree]
  split
  · exact State.items_directChildren_shift h.subtree hs
  · exact State.items_within_shift h.subtree hs

theorem accepts (h : outer.Inside inner t u c) (f : Filter) {id : Nat} (hid : id < u.size) :
    outer.accepts f (s.shift c) (c + id) = inner.accepts f s id := by
  rw [Scene.accepts, Scene.accepts, h.outer_tree, h.inner_tree, h.acceptance,
    LinkedTree.node_add h.subtree hid]
  rfl

theorem below (h : outer.Inside inner t u c) (f : Filter) (captures : Bool) {id : Nat}
    (hid : s.Reaches (.ofTree u) id)
    (hfind : ∀ r, r.WellScoped (.ofTree u) → find (r.shift c) = (own r).map (·.shift c)) :
    outer.below f captures find (s.shift c) (c + id) =
      (inner.below f captures own s id).map (·.shift c) := by
  have hsize := LinkedTree.lt_size_of_mem_ancestors hid.1
  simp only [Scene.below, h.outer_tree, h.inner_tree, State.shift_enter h.subtree f.capture hsize,
    State.shift_past h.subtree hid, hfind _ (State.enter_wellScoped id f.capture), List.map_map]
  rfl

theorem anywhere (h : outer.Inside inner t u c) {before : State}
    (hb : before.WellScoped (.ofTree u))
    (hfind : find ((before.startAt s).shift c) = (own (before.startAt s)).map (·.shift c))
    (hown : ∀ r ∈ own (before.startAt s), r.WellScoped (.ofTree u)) :
    outer.anywhere (s.shift c) find (before.shift c) =
      (inner.anywhere s own before).map (·.shift c) := by
  have hstart : (before.shift c).startAt (s.shift c) = (before.startAt s).shift c := rfl
  rw [Scene.anywhere, Scene.anywhere, hstart, hfind, h.outer_tree, h.inner_tree, List.map_map,
    List.map_map]
  apply List.map_congr_left
  intro r hr
  exact State.shift_notBefore h.subtree (hown r hr) hb

theorem directNeighbor? (h : outer.Inside inner t u c) (hs : s.WellScoped (.ofTree u)) :
    (s.shift c).cursor.bind outer.tree.directNeighbor? =
      (s.cursor.bind inner.tree.directNeighbor?).map (c + ·) := by
  cases hc : s.cursor with
  | none => simp [State.shift, hc]
  | some d =>
    obtain ⟨p, hp⟩ := LinkedTree.exists_parent?_of_mem_ancestors (hs d hc)
    rw [h.outer_tree, h.inner_tree, State.shift, hc, Option.map_some, Option.bind_some,
      Option.bind_some, LinkedTree.directNeighbor?_add h.subtree hp]

theorem covering (h : outer.Inside inner t u c) (nextOnly : Bool)
    (hs : s.WellScoped (.ofTree u)) (hfind : find (s.shift c) = (own s).map (·.shift c))
    (hown : ∀ r ∈ own s, r.WellScoped (.ofTree u)) :
    outer.covering nextOnly find (s.shift c) =
      (inner.covering nextOnly own s).map (·.shift c) := by
  have halign : (find (s.shift c)).map (·.align outer.tree) =
      ((own s).map (·.align inner.tree)).map (·.shift c) := by
    rw [hfind, h.outer_tree, h.inner_tree, List.map_map, List.map_map]
    apply List.map_congr_left
    intro r hr
    exact State.shift_align h.subtree (hown r hr)
  have hsome : (s.shift c).cursor.isSome = s.cursor.isSome := Option.isSome_map
  have hcursor (r : State) (next : Option Nat) :
      (r.shift c).cursor = next.map (c + ·) ↔ r.cursor = next :=
    (Option.map_injective (fun a b hab => Nat.add_left_cancel hab)).eq_iff
  simp only [Scene.covering, halign, hsome, h.directNeighbor? hs]
  split
  · split
    · rw [List.filter_map]
      simp only [Function.comp_def, hcursor]
    · rfl
  · rfl

theorem results (h : outer.Inside inner t u c) (q : Query) (hs : s.WellScoped (.ofTree u)) :
    outer.results q (s.shift c) = (inner.results q s).map (·.shift c) := by
  induction q generalizing s with
  | single f nested ih =>
    rw [results_single, results_single, h.items_candidates f hs]
    apply flatMap_moved
    intro id hid
    have hreach := reaches_of_mem_candidates h.inner_tree hs hid
    rw [h.accepts f (LinkedTree.lt_size_of_mem_ancestors hreach.1)]
    split
    · exact h.below f _ hreach fun r hr => ih hr
    · rfl
  | container mode children ih =>
    have hchild : ∀ q ∈ children, ∀ r, s.Advances (.ofTree u) r →
        outer.results q (r.shift c) = (inner.results q r).map (·.shift c) :=
      fun q hq r hr => ih q hq hr.wellScoped
    have hkeep : ∀ q ∈ children, ∀ before, s.Advances (.ofTree u) before →
        ∀ r ∈ inner.results q before, s.Advances (.ofTree u) r :=
      fun q _ before hb r hr => hb.trans (advances_of_mem_results h.inner_tree q hb.wellScoped hr)
    have haccumulated : accumulated (children.map outer.results) (s.shift c) =
        (accumulated (children.map inner.results) s).map (·.shift c) :=
      accumulated_moved (.shift c) (fun _ _ => State.shift_inj) (fun _ _ => rfl) hchild hkeep
        hs.advances
        fun r hr => hr.startAt hs
    cases mode with
    | ordered =>
      rw [results_ordered, results_ordered]
      exact chain_moved (.shift c) (fun _ _ => State.shift_inj) hchild hkeep hs.advances
    | unordered =>
      rw [results_unordered, results_unordered]
      refine chain_moved (.shift c) (fun _ _ => State.shift_inj) (P := s.Advances (.ofTree u)) ?_ ?_
          hs.advances
      · intro q hq before hb
        have hstart := hb.startAt hs
        exact h.anywhere hb.wellScoped (hchild q hq _ hstart)
          fun r hr => (hkeep q hq _ hstart r hr).wellScoped
      · intro q hq before hb r hr
        exact advances_of_mem_anywhere h.inner_tree (hkeep q hq _ (hb.startAt hs)) hb hr
    | any =>
      rw [results_any, results_any]
      split
      · rfl
      · exact haccumulated
    | optional =>
      rw [results_optional, results_optional]
      dsimp only
      rw [haccumulated, List.isEmpty_map]
      split <;> rfl
    | exact =>
      have hchain :
          chain List.eraseDups ((Query.stretches children).map outer.stretch) (s.shift c) =
          (chain List.eraseDups ((Query.stretches children).map inner.stretch) s).map
            (·.shift c) := by
        refine chain_moved (.shift c) (fun _ _ => State.shift_inj)
          (P := s.Advances (.ofTree u)) ?_ ?_
          hs.advances
        · intro part hpart before hb
          have hq := Query.mem_of_mem_stretches hpart
          exact h.covering _ hb.wellScoped (hchild part.1 hq before hb)
            fun r hr => (hkeep part.1 hq before hb r hr).wellScoped
        · intro part hpart before hb r hr
          exact advances_of_mem_covering h.inner_tree
            (hkeep part.1 (Query.mem_of_mem_stretches hpart) before hb) hr
      rw [results_exact, results_exact]
      dsimp only
      rw [hchain]
      split
      · rw [List.filter_map]
        simp only [Function.comp_def, State.shift, Option.isNone_map]
      · rfl

end Inside

end Scene

namespace Matcher

/-- Searching the children of the node at `c` of a tree finds what searching the tree of that node
finds from its root: the same captures, one result after the other, each at its place moved by `c`.
What lies around that node has no part in it. -/
theorem evaluate_scope_local (m : Matcher) {p : Tree Presented} {n : Nat} {t : Tree Nat}
    (h : (Subject.ofTree p).tree? n = some t) {c : Nat} (hc : c < (LinkedTree.ofTree t).size)
    (q : Query) (b : Bindings) :
    ∃ u, (Subject.ofTree p).tree? ((LinkedTree.ofTree t).node c) = some u ∧
      let whole := m.scene (.ofTree p) (.ofTree t)
      let alone := m.scene (.ofTree p) (.ofTree u)
      let inside := (whole.evaluate q ⟨c, whole.tree.firstChild? c, b⟩).items
      let found := (alone.evaluate q ((State.initial alone.tree).withBindings b)).items
      inside = found.map (State.shift c) ∧
        inside.map State.bindings = found.map State.bindings ∧
        inside.map State.cursor = found.map fun r => r.cursor.map (c + ·) := by
  rw [LinkedTree.size_ofTree, ← Tree.length_subtrees] at hc
  have hu := List.getElem?_eq_getElem hc
  generalize t.subtrees[c] = u at hu
  refine ⟨u, ?_, ?_⟩
  · rw [LinkedTree.node_ofTree hu]
    exact Subject.tree?_of_subtrees h hu
  · intro whole alone inside found
    have hinside : whole.Inside alone t u c := ⟨rfl, rfl, hu, rfl⟩
    have hstart : ⟨c, whole.tree.firstChild? c, b⟩ =
        ((State.initial alone.tree).withBindings b).shift c := by
      have hfirst := LinkedTree.firstChild?_add hu (Tree.size_pos u)
      simpa [State.shift, State.initial, State.withBindings, LinkedTree.root, whole, alone, scene]
        using hfirst
    have hresults : inside = found.map (State.shift c) := by
      have hh := hinside.results q (s := (State.initial alone.tree).withBindings b)
        State.initial_wellScoped
      rwa [← hstart] at hh
    refine ⟨hresults, ?_, ?_⟩
    · rw [hresults, List.map_map]
      rfl
    · rw [hresults, List.map_map]
      rfl

/-- An inner node with a sibling after it: its child is found, the sibling is not. -/
theorem evaluate_scope_local_inner_node :
    let plain : Presented := { element := default }
    let p : Tree Presented := .node plain [.node plain [.node plain []], .node plain []]
    let t : Tree Nat := .node 0 [.node 1 [.node 2 []], .node 3 []]
    let q : Query := .leaf { capture := some "leaf" }
    (Subject.ofTree p).tree? 0 = some t ∧ 1 < (LinkedTree.ofTree t).size ∧
      ∃ u, (Subject.ofTree p).tree? ((LinkedTree.ofTree t).node 1) = some u ∧
        ((({} : Matcher).scene (.ofTree p) (.ofTree u)).evaluate q
          ((State.initial (.ofTree u)).withBindings .empty)).items.map State.bindings =
            [Bindings.empty.insert "leaf" 2] := by
  intro plain p t q
  have ht : (Subject.ofTree p).tree? 0 = some t := by
    simp [Subject.tree?, Subject.ofTree, Tree.number, Tree.numberAll, Tree.size, Tree.sizes,
      Tree.subtrees, Tree.unfold_eq, Tree.linkedChildren, Tree.targets, Tree.label, Tree.children,
      Tree.at?, p, t, plain]
  have hc : 1 < (LinkedTree.ofTree t).size := by
    rw [LinkedTree.size_ofTree]
    decide
  have hinside : ((({} : Matcher).scene (.ofTree p) (.ofTree t)).evaluate q
      ⟨1, (LinkedTree.ofTree t).firstChild? 1, .empty⟩).items.map State.bindings =
        [Bindings.empty.insert "leaf" 2] := by
    change (Scene.results _ q _).map State.bindings = _
    simp only [q, Query.leaf, Scene.results_single, Scene.below]
    decide +kernel
  obtain ⟨u, hu, _, hbindings, _⟩ := evaluate_scope_local {} ht hc q .empty
  exact ⟨ht, hc, u, hu, hbindings.symm.trans hinside⟩

end Matcher

end TreeQuery
