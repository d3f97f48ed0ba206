import TreeQuery.Proofs.Navigation
import TreeQuery.Proofs.Results

/-! Where an evaluation goes. What it finds from a state lies strictly inside the scope of that
state and not before its cursor: the cursors it leaves behind, and the nodes it binds. -/

namespace TreeQuery

theorem Search.mem_items_iterate {ε α : Type} {next : α → Option α} {P : α → Prop}
    (hnext : ∀ a b, P a → next a = some b → P b) {bound : Nat} {start : Option α}
    (hstart : ∀ a, start = some a → P a) {a : α}
    (h : a ∈ (Search.iterate next bound start : Search ε α).items) : P a := by
  induction bound generalizing start with
  | zero => simp [iterate, items] at h
  | succ bound ih =>
    cases start with
    | none => simp [iterate, items] at h
    | some b =>
      rcases List.mem_cons.mp (by simpa only [iterate, items] using h) with rfl | h
      · exact hstart a rfl
      · exact ih (fun c hc => hnext b c (hstart b rfl) hc) h

namespace State

/-- Strictly inside the scope and not before the cursor. -/
def Reaches (t : LinkedTree) (s : State) (id : Nat) : Prop :=
  s.root ∈ t.ancestors id ∧ ∃ c, s.cursor = some c ∧ c ≤ id

def WellScoped (t : LinkedTree) (s : State) : Prop :=
  ∀ c, s.cursor = some c → s.root ∈ t.ancestors c

/-- How a state relates to the one it was found from. -/
structure Advances (t : LinkedTree) (s r : State) : Prop where
  root_eq : r.root = s.root
  cursor : ∀ d, r.cursor = some d → s.Reaches t d
  bindings : ∀ name n, r.bindings.get? name = some n →
    s.bindings.get? name = some n ∨ ∃ id, s.Reaches t id ∧ t.node id = n

section Advances

variable {lt : LinkedTree} {s u r : State}

theorem WellScoped.reaches (h : s.WellScoped lt) {c : Nat} (hc : s.cursor = some c) :
    s.Reaches lt c :=
  ⟨h c hc, c, hc, Nat.le_refl c⟩

theorem WellScoped.advances (h : s.WellScoped lt) : s.Advances lt s :=
  ⟨rfl, fun _ hd => h.reaches hd, fun _ _ hn => .inl hn⟩

theorem Advances.wellScoped (h : s.Advances lt r) : r.WellScoped lt := by
  intro d hd
  rw [h.root_eq]
  exact (h.cursor d hd).1

theorem Advances.reaches (h : s.Advances lt u) {id : Nat} (hid : u.Reaches lt id) :
    s.Reaches lt id := by
  obtain ⟨hroot, d, hd, hle⟩ := hid
  obtain ⟨_, c, hc, hcd⟩ := h.cursor d hd
  rw [h.root_eq] at hroot
  exact ⟨hroot, c, hc, Nat.le_trans hcd hle⟩

theorem Advances.trans (h : s.Advances lt u) (h' : u.Advances lt r) : s.Advances lt r where
  root_eq := h'.root_eq.trans h.root_eq
  cursor := fun d hd => h.reaches (h'.cursor d hd)
  bindings := by
    intro name n hn
    rcases h'.bindings name n hn with hn | ⟨id, hid, he⟩
    · exact h.bindings name n hn
    · exact .inr ⟨id, h.reaches hid, he⟩

/-- Only the cursor of what was found matters for where it may be put. -/
theorem Advances.withCursor (h : s.Advances lt r) {cursor : Option Nat}
    (hc : ∀ d, cursor = some d → s.Reaches lt d) : s.Advances lt { r with cursor } :=
  ⟨h.root_eq, hc, h.bindings⟩

theorem Advances.startAt (h : s.Advances lt r) (hs : s.WellScoped lt) :
    s.Advances lt (r.startAt s) :=
  h.withCursor fun _ hd => hs.reaches hd

theorem Advances.notBefore (h : s.Advances lt r) (hu : s.Advances lt u) :
    s.Advances lt (r.notBefore lt u) := by
  rw [State.notBefore]
  split
  next mine theirs hmine htheirs =>
    split
    · exact h
    · exact h.withCursor fun d hd => hu.cursor d (htheirs.trans hd)
  next => exact h.withCursor fun d hd => absurd hd (by simp)

end Advances

section OfTree

variable {t : Tree Nat} {s r : State}

theorem parent?_of_aligned? (hs : s.WellScoped (.ofTree t)) {d : Nat}
    (h : s.aligned? (.ofTree t) = some d) :
    (LinkedTree.ofTree t).parent? d = some s.root ∧ ∃ c, s.cursor = some c ∧ c ≤ d := by
  obtain ⟨c, hc, hd⟩ := Option.bind_eq_some_iff.mp h
  obtain ⟨hparent, hle⟩ := LinkedTree.directChildOf?_spec (hs c hc) hd
  exact ⟨hparent, c, hc, hle⟩

theorem reaches_of_parent? {d : Nat} (hparent : (LinkedTree.ofTree t).parent? d = some s.root)
    (hc : ∃ c, s.cursor = some c ∧ c ≤ d) : s.Reaches (.ofTree t) d :=
  ⟨LinkedTree.parent?_mem_ancestors hparent, hc⟩

theorem Advances.align (h : s.Advances (.ofTree t) r) :
    s.Advances (.ofTree t) (r.align (.ofTree t)) := by
  refine h.withCursor fun d hd => ?_
  obtain ⟨hparent, hc⟩ := parent?_of_aligned? h.wellScoped hd
  exact h.reaches (reaches_of_parent? hparent hc)

theorem mem_items_within {ε : Type} (hs : s.WellScoped (.ofTree t)) {id : Nat}
    (h : id ∈ (s.within (.ofTree t) : Search ε Nat).items) : s.Reaches (.ofTree t) id := by
  refine Search.mem_items_iterate (P := s.Reaches (.ofTree t)) ?_ (fun c hc => hs.reaches hc) h
  rintro a b ⟨hroot, c, hc, hle⟩ hb
  obtain ⟨hrootb, hlt⟩ := LinkedTree.nextWithin?_spec hroot hb
  exact ⟨hrootb, c, hc, by omega⟩

theorem mem_items_directChildren {ε : Type} (hs : s.WellScoped (.ofTree t)) {id : Nat}
    (h : id ∈ (s.directChildren (.ofTree t) : Search ε Nat).items) :
    s.Reaches (.ofTree t) id := by
  obtain ⟨hparent, hc⟩ := Search.mem_items_iterate
    (P := fun id => (LinkedTree.ofTree t).parent? id = some s.root ∧
      ∃ c, s.cursor = some c ∧ c ≤ id)
    (fun a b hab hb => by
      obtain ⟨hparent, c, hc, hle⟩ := hab
      obtain ⟨hsame, rfl⟩ := LinkedTree.directNeighbor?_spec hb
      have := LinkedTree.lt_stop (LinkedTree.parent?_mem_ancestors hparent)
      exact ⟨hsame.trans hparent, c, hc, by omega⟩)
    (fun c hc => parent?_of_aligned? hs hc) h
  exact reaches_of_parent? hparent hc

theorem initial_wellScoped : (State.initial (.ofTree t)).WellScoped (.ofTree t) := by
  intro c hc
  exact LinkedTree.parent?_mem_ancestors (LinkedTree.firstChild?_spec hc).1

theorem enter_wellScoped (id : Nat) (capture : Option String) :
    (s.enter (.ofTree t) capture id).WellScoped (.ofTree t) := by
  intro c hc
  exact LinkedTree.parent?_mem_ancestors (LinkedTree.firstChild?_spec hc).1

/-- What is inside a reached id is reached itself, in the scope of that id or in the outer one. -/
theorem Reaches.of_enter {id : Nat} (hid : s.Reaches (.ofTree t) id) {capture : Option String}
    {i : Nat} (hi : (s.enter (.ofTree t) capture id).Reaches (.ofTree t) i) :
    s.Reaches (.ofTree t) i := by
  obtain ⟨hroot, c, hc, hle⟩ := hid
  obtain ⟨hin, _⟩ := hi
  have hlt := (LinkedTree.stop_ancestor hin).1
  exact ⟨LinkedTree.mem_ancestors_trans hroot hin, c, hc, Nat.le_trans hle (Nat.le_of_lt hlt)⟩

theorem Reaches.bind {id : Nat} (hid : s.Reaches (.ofTree t) id) (capture : Option String)
    {name : String} {n : Nat}
    (h : (s.bindings.bind capture ((LinkedTree.ofTree t).node id)).get? name = some n) :
    s.bindings.get? name = some n ∨
      ∃ id, s.Reaches (.ofTree t) id ∧ (LinkedTree.ofTree t).node id = n := by
  rw [Bindings.get?_bind] at h
  split at h
  · exact .inr ⟨id, hid, Option.some.inj h⟩
  · exact .inl h

theorem Reaches.past {id : Nat} (hid : s.Reaches (.ofTree t) id) {d : Nat}
    (hd : (s.past (.ofTree t) id).cursor = some d) : s.Reaches (.ofTree t) d ∧ id < d := by
  obtain ⟨hroot, c, hc, hle⟩ := hid
  obtain ⟨hin, hstop⟩ := LinkedTree.neighborWithin?_spec hroot hd
  have := LinkedTree.lt_stop hroot
  exact ⟨⟨hin, c, hc, by omega⟩, by omega⟩

/-- The state past an accepted candidate, with what the search below it has bound. -/
theorem Reaches.advances {id : Nat} (hid : s.Reaches (.ofTree t) id) {capture : Option String}
    (h : (s.enter (.ofTree t) capture id).Advances (.ofTree t) r) :
    s.Advances (.ofTree t) ((s.past (.ofTree t) id).withBindings r.bindings) where
  root_eq := rfl
  cursor := fun d hd => (hid.past hd).1
  bindings := by
    intro name n hn
    rcases h.bindings name n hn with hn | ⟨i, hi, he⟩
    · exact hid.bind capture hn
    · exact .inr ⟨i, hid.of_enter hi, he⟩

end OfTree

end State

namespace Scene

variable {scene : Scene} {t : Tree Nat} {s r : State}

theorem reaches_of_mem_candidates (hscene : scene.tree = .ofTree t) (hs : s.WellScoped (.ofTree t))
    {f : Filter} {id : Nat} (h : id ∈ (scene.candidates f s).items) :
    s.Reaches (.ofTree t) id := by
  rw [candidates, hscene] at h
  split at h
  · exact State.mem_items_directChildren hs h
  · exact State.mem_items_within hs h

theorem advances_of_mem_covering (hscene : scene.tree = .ofTree t) {nextOnly : Bool} {find : Find}
    {before : State} (hfind : ∀ found ∈ find before, s.Advances (.ofTree t) found)
    (hr : r ∈ scene.covering nextOnly find before) : s.Advances (.ofTree t) r := by
  obtain ⟨found, hf, rfl⟩ := exists_of_mem_covering hr
  rw [hscene]
  exact (hfind found hf).align

theorem advances_of_mem_anywhere (hscene : scene.tree = .ofTree t) {find : Find} {before : State}
    (hfind : ∀ found ∈ find (before.startAt s), s.Advances (.ofTree t) found)
    (hb : s.Advances (.ofTree t) before) (hr : r ∈ scene.anywhere s find before) :
    s.Advances (.ofTree t) r := by
  obtain ⟨found, hf, rfl⟩ := List.mem_map.mp hr
  rw [hscene]
  exact (hfind found hf).notBefore hb

theorem advances_of_mem_results (hscene : scene.tree = .ofTree t) (q : Query)
    (hs : s.WellScoped (.ofTree t)) (hr : r ∈ scene.results q s) : s.Advances (.ofTree t) r := by
  induction q generalizing s r with
  | single f nested ih =>
    obtain ⟨id, hid, _, x, hx, rfl⟩ := exists_of_mem_results_single hr
    rw [hscene] at hx ⊢
    exact (reaches_of_mem_candidates hscene hs hid).advances
      (ih (State.enter_wellScoped id f.capture) hx)
  | container mode children ih =>
    have hstep : ∀ q ∈ children, ∀ u, s.Advances (.ofTree t) u → ∀ r ∈ scene.results q u,
        s.Advances (.ofTree t) r :=
      fun q hq u hu r hr => hu.trans (ih q hq hu.wellScoped hr)
    refine forall_mem_results_container hs.advances hstep ?_ (fun r hr => hscene ▸ hr.align)
      (fun _ => ?_) r hr
    · intro q hq before hb r hr
      exact advances_of_mem_anywhere hscene (hstep q hq _ (hb.startAt hs)) hb hr
    · exact forall_mem_accumulated (List.forall_mem_map.mpr hstep) hs.advances
        fun r hr => hr.startAt hs

theorem advances_of_mem_results_startAt (hscene : scene.tree = .ofTree t) (q : Query)
    (hs : s.WellScoped (.ofTree t)) {before : State} (hb : s.Advances (.ofTree t) before)
    (hr : r ∈ scene.results q (before.startAt s)) : s.Advances (.ofTree t) r := by
  have hstart := hb.startAt hs
  exact hstart.trans (advances_of_mem_results hscene q hstart.wellScoped hr)

theorem advances_of_mem_anywhere_results (hscene : scene.tree = .ofTree t) (q : Query)
    (hs : s.WellScoped (.ofTree t)) {before : State} (hb : s.Advances (.ofTree t) before)
    (hr : r ∈ scene.anywhere s (scene.results q) before) : s.Advances (.ofTree t) r :=
  advances_of_mem_anywhere hscene
    (fun _ hx => advances_of_mem_results_startAt hscene q hs hb hx) hb hr

/-- What a single query finds lies strictly after the cursor it starts at. -/
theorem lt_of_mem_results_single (hscene : scene.tree = .ofTree t) (hs : s.WellScoped (.ofTree t))
    {f : Filter} {nested : Query} (hr : r ∈ scene.results (.single f nested) s) :
    ∃ c, s.cursor = some c ∧ ∀ d, r.cursor = some d → c < d := by
  obtain ⟨id, hid, _, x, _, rfl⟩ := exists_of_mem_results_single hr
  have hreach := reaches_of_mem_candidates hscene hs hid
  obtain ⟨c, hc, hle⟩ := hreach.2
  refine ⟨c, hc, fun d hd => ?_⟩
  rw [hscene] at hd
  have := (hreach.past hd).2
  omega

theorem parent?_of_mem_results_exact (hscene : scene.tree = .ofTree t)
    (hs : s.WellScoped (.ofTree t)) {children : List Query}
    (hr : r ∈ scene.results (.container .exact children) s) {d : Nat} (hd : r.cursor = some d) :
    (LinkedTree.ofTree t).parent? d = some s.root := by
  rw [results_exact] at hr
  dsimp only at hr
  split at hr
  · have hnone := (List.mem_filter.mp hr).2
    simp [hd] at hnone
  next hclosed =>
    rcases List.eq_nil_or_concat (Query.stretches children) with hnil | ⟨front, last, hlast⟩
    · obtain rfl : children = [] := by
        cases children with
        | nil => rfl
        | cons q qs => simp [Query.stretches] at hnil
      exact absurd rfl hclosed
    · rw [hlast, List.concat_eq_append, List.map_append, List.map_singleton, chain_concat] at hr
      obtain ⟨before, hbefore, hr⟩ := List.mem_flatMap.mp (List.mem_eraseDups.mp hr)
      have hb : s.Advances (.ofTree t) before := by
        refine forall_mem_chain (List.forall_mem_map.mpr ?_) hs.advances before hbefore
        intro part _ u hu r hr
        exact advances_of_mem_covering hscene
          (fun found hf => hu.trans (advances_of_mem_results hscene part.1 hu.wellScoped hf)) hr
      obtain ⟨found, hf, rfl⟩ := exists_of_mem_covering hr
      have hfound := hb.trans (advances_of_mem_results hscene last.1 hb.wellScoped hf)
      rw [hscene] at hd
      rw [← hfound.root_eq]
      exact (State.parent?_of_aligned? hfound.wellScoped hd).1

/-- The position of a result: the scope is the one of the start, the cursor stays in it and never
goes back, and what is newly bound lies in the scope, not before the start. A single query moves on,
and an exact container ends at a child of the scope or past all of them. -/
theorem evaluate_position (hscene : scene.tree = .ofTree t) (q : Query)
    (hs : s.WellScoped scene.tree) (hr : r ∈ (scene.evaluate q s).items) :
    r.root = s.root ∧ r.WellScoped scene.tree ∧
    (∀ d, r.cursor = some d → ∃ c, s.cursor = some c ∧ c ≤ d) ∧
    (∀ name n, r.bindings.get? name = some n → s.bindings.get? name ≠ some n →
      ∃ id < scene.tree.size, scene.tree.node id = n ∧ s.root ∈ scene.tree.ancestors id ∧
        ∃ c, s.cursor = some c ∧ c ≤ id) ∧
    (q.isSingle → ∃ c, s.cursor = some c ∧ ∀ d, r.cursor = some d → c < d) ∧
    (∀ children, q = .container .exact children →
      ∀ d, r.cursor = some d → scene.tree.parent? d = some s.root) := by
  have hadvances := advances_of_mem_results hscene q (hscene ▸ hs) hr
  rw [hscene] at hs ⊢
  refine ⟨hadvances.root_eq, hadvances.wellScoped, ?_, ?_, ?_, ?_⟩
  · intro d hd
    exact (hadvances.cursor d hd).2
  · intro name n hn hnew
    rcases hadvances.bindings name n hn with hold | ⟨id, hid, he⟩
    · exact absurd hold hnew
    · refine ⟨id, ?_, he, hid⟩
      rw [LinkedTree.size_ofTree]
      exact LinkedTree.lt_size_of_mem_ancestors hid.1
  · intro hsingle
    cases q with
    | single f nested => exact lt_of_mem_results_single hscene hs hr
    | container mode children => simp [Query.isSingle] at hsingle
  · rintro children rfl d hd
    exact parent?_of_mem_results_exact hscene hs hr hd

/-- Two captures, one below the other: the search goes on at the sibling of the outer node. -/
theorem evaluate_position_nested_captures :
    let t : Tree Nat := .node 0 [.node 1 [.node 2 []], .node 3 []]
    let scene : Scene :=
      { tree := .ofTree t, type := fun _ => "", acceptance := fun _ _ _ => true }
    let q := Query.single { capture := some "outer" } (.leaf { capture := some "inner" })
    let s := State.initial scene.tree
    let r : State := ⟨0, some 3, (Bindings.empty.insert "outer" 1).insert "inner" 2⟩
    s.WellScoped scene.tree ∧ r ∈ (scene.evaluate q s).items ∧ s.cursor = some 1 ∧
      ∃ c, s.cursor = some c ∧ ∀ d, r.cursor = some d → c < d := by
  intro t scene q s r
  have hs : s.WellScoped scene.tree := State.initial_wellScoped
  have hr : r ∈ (scene.evaluate q s).items := by
    change r ∈ scene.results q s
    simp only [q, Query.leaf, results_single, below]
    decide +kernel
  exact ⟨hs, hr, by decide +kernel, (evaluate_position rfl q hs hr).2.2.2.2.1 rfl⟩

end Scene

end TreeQuery
