import TreeQuery.Proofs.Candidates
import TreeQuery.Proofs.Captures
import TreeQuery.Proofs.Cursors
import TreeQuery.Proofs.Pairing
import TreeQuery.Proofs.Places

/-! Containers of single queries, the stricter modes before the others. What a single query finds
from a state it finds from every earlier one with the same bindings. So whatever an exact container
binds an ordered one binds too, which binds nothing that an unordered one would not. An `any`
container has among its results those to which every child has contributed. -/

namespace TreeQuery

namespace State

variable {t : Tree Nat} {s u r : State}

/-- In one scope and with the same bindings, the first state has got as far as the second. -/
structure Leads (t : Tree Nat) (s u : State) : Prop where
  root_eq : s.root = u.root
  bindings_eq : s.bindings = u.bindings
  follows : s.Follows u
  wellScoped : s.WellScoped (.ofTree t)
  behind : u.WellScoped (.ofTree t)

theorem WellScoped.leads (h : s.WellScoped (.ofTree t)) : s.Leads t s :=
  ⟨rfl, rfl, .refl s, h, h⟩

theorem Leads.reaches (h : s.Leads t u) {id : Nat} (hid : s.Reaches (.ofTree t) id) :
    u.Reaches (.ofTree t) id := by
  obtain ⟨hroot, d, hd, hle⟩ := hid
  obtain ⟨c, hc, hcd⟩ := h.follows d hd
  rw [h.root_eq] at hroot
  exact ⟨hroot, c, hc, Nat.le_trans hcd hle⟩

end State

namespace Scene

variable {scene : Scene} {t : Tree Nat} {s u r : State}

/-- Of a state only its scope and its bindings matter to what is found at a candidate. -/
theorem mem_results_of_leads (hscene : scene.tree = .ofTree t) {q : Query} (hq : q.isSingle)
    (h : s.Leads t u) (hr : r ∈ scene.results q s) : r ∈ scene.results q u := by
  cases q with
  | container mode children => simp [Query.isSingle] at hq
  | single f nested =>
    rw [results_single] at hr ⊢
    obtain ⟨id, hid, hr⟩ := List.mem_flatMap.mp hr
    obtain ⟨hreached, hdirect⟩ := (mem_candidates_iff hscene h.wellScoped).mp hid
    have hid' : id ∈ (scene.candidates f u).items :=
      (mem_candidates_iff hscene h.behind).mpr
        ⟨h.reaches hreached, fun hd => h.root_eq ▸ hdirect hd⟩
    have haccepts : scene.accepts f s id = scene.accepts f u id := by
      rw [accepts, accepts, h.bindings_eq]
    have hbelow (captures : Bool) (find : Find) :
        scene.below f captures find s id = scene.below f captures find u id := by
      simp only [below, State.enter, State.past, h.bindings_eq, h.root_eq]
    rw [haccepts, hbelow] at hr
    exact List.mem_flatMap.mpr ⟨id, hid', hr⟩

/-- Whatever the one query binds, the other binds as well. -/
def BindsWithin (scene : Scene) (q q' : Query) (s : State) : Prop :=
  ∀ r ∈ scene.results q s, ∃ u ∈ scene.results q' s, u.bindings = r.bindings

theorem BindsWithin.subset {q q' : Query} (h : scene.BindsWithin q q' s) :
    (scene.results q s).map State.bindings ⊆ (scene.results q' s).map State.bindings := by
  intro b hb
  obtain ⟨r, hr, rfl⟩ := List.mem_map.mp hb
  exact List.mem_map.mpr (h r hr)

section Singles

variable {children : List Query} (hsingles : ∀ q ∈ children, q.isSingle)
  (hscene : scene.tree = .ofTree t) (hs : s.WellScoped (.ofTree t))

include hsingles hscene hs

theorem exact_bindsWithin_ordered :
    scene.BindsWithin (.container .exact children) (.container .ordered children) s := by
  intro r hr
  have hordered : scene.results (.container .ordered children) s =
      chain List.eraseDups ((Query.stretches children).map fun part => scene.results part.1) s := by
    rw [results_ordered]
    conv => lhs; rw [← Query.map_fst_stretches children, List.map_map]
    rfl
  have hstep : ∀ part ∈ Query.stretches children, ∀ _ : List (Query × Bool), ∀ e o : State,
      e.Leads t o → ∀ r ∈ scene.stretch part e, ∃ r' ∈ scene.results part.1 o, r.Leads t r' := by
    intro part hpart _ e o he r hr
    obtain ⟨found, hf, rfl⟩ := exists_of_mem_covering hr
    have hadvances := advances_of_mem_results hscene part.1 he.wellScoped hf
    have hq := hsingles part.1 (Query.mem_of_mem_stretches hpart)
    refine ⟨found, mem_results_of_leads hscene hq he hf, ?_⟩
    rw [hscene]
    exact ⟨rfl, rfl, State.follows_align hadvances.wellScoped, hadvances.align.wellScoped,
      hadvances.wellScoped⟩
  obtain ⟨u, hu, hlead⟩ := exists_mem_chain (R := fun _ => State.Leads t) hstep hs.leads
    (mem_chain_of_mem_results_exact hr)
  rw [hordered]
  exact ⟨u, hu, hlead.bindings_eq.symm⟩

theorem ordered_bindsWithin_unordered :
    scene.BindsWithin (.container .ordered children) (.container .unordered children) s := by
  intro r hr
  rw [results_ordered] at hr
  rw [results_unordered]
  have hstep : ∀ q ∈ children, ∀ _ : List Query, ∀ o u : State, o.Leads t (u.startAt s) →
      ∀ r ∈ scene.results q o, ∃ r' ∈ scene.anywhere s (scene.results q) u,
        r.Leads t (r'.startAt s) := by
    intro q hq _ o u ho r hr
    have hadvances := advances_of_mem_results hscene q ho.wellScoped hr
    refine ⟨_, List.mem_map_of_mem (mem_results_of_leads hscene (hsingles q hq) ho hr), ?_⟩
    rw [State.startAt_notBefore]
    refine ⟨rfl, rfl, hadvances.follows.trans ho.follows, hadvances.wellScoped, ?_⟩
    intro c hc
    have hroot := hadvances.root_eq.trans ho.root_eq
    exact hroot ▸ ho.behind c hc
  obtain ⟨u, hu, hlead⟩ :=
    exists_mem_chain (R := fun _ o u => o.Leads t (u.startAt s)) hstep hs.leads hr
  exact ⟨u, hu, hlead.bindings_eq.symm⟩

end Singles

/-- All that the children of an unordered container find one after the other, they also find as the
children of an `any` container. -/
theorem exists_mem_accumulated_of_chain {parts : List Find}
    (hr : r ∈ chain List.eraseDups (parts.map (scene.anywhere s)) s) :
    r = s ∧ parts = [] ∨ ∃ u ∈ accumulated parts s, u.startAt s = r.startAt s := by
  induction parts using List.reverseRecOn generalizing r with
  | nil => exact .inl ⟨by simpa [chain] using hr, rfl⟩
  | append_singleton front last ih =>
    rw [List.map_append, List.map_singleton, chain_concat] at hr
    obtain ⟨before, hb, hr⟩ := List.mem_flatMap.mp (List.mem_eraseDups.mp hr)
    obtain ⟨found, hf, rfl⟩ := List.mem_map.mp hr
    refine .inr ⟨found, mem_accumulated_concat_iff.mpr (.inr ?_), (State.startAt_notBefore ..).symm⟩
    rcases ih hb with ⟨rfl, _⟩ | ⟨u, hu, hstart⟩
    · exact .inl hf
    · exact .inr ⟨u, hu, hstart ▸ hf⟩

theorem unordered_bindsWithin_any (scene : Scene) (children : List Query) (s : State) :
    scene.BindsWithin (.container .unordered children) (.container .any children) s := by
  intro r hr
  have hparts : (children.map scene.results).map (scene.anywhere s) =
      children.map fun q => scene.anywhere s (scene.results q) := by
    rw [List.map_map]
    rfl
  rw [results_unordered, ← hparts] at hr
  rw [results_any]
  rcases exists_mem_accumulated_of_chain hr with ⟨rfl, hnil⟩ | ⟨u, hu, hstart⟩
  · rw [List.map_eq_nil_iff] at hnil
    exact ⟨r, by simp [hnil], rfl⟩
  · have hne : children.isEmpty = false := by
      cases children with
      | nil => simp [accumulated] at hu
      | cons q qs => rfl
    rw [hne]
    have hbindings := congrArg State.bindings hstart
    exact ⟨u, hu, hbindings⟩

end Scene

namespace Matcher

variable {m : Matcher} {sub : Subject}

theorem hasMatch_of_bindsWithin {q q' : Query}
    (h : ∀ t : Tree Nat,
      (m.scene sub (.ofTree t)).BindsWithin q q' (.initial (.ofTree t)))
    (hmatch : m.hasMatch q sub) : m.hasMatch q' sub := by
  obtain ⟨t, ht, hfound⟩ := hasMatch_iff.mp hmatch
  obtain ⟨r, hr⟩ := List.exists_mem_of_ne_nil _ hfound
  obtain ⟨u, hu, _⟩ := h t r hr
  exact hasMatch_iff.mpr ⟨t, ht, List.ne_nil_of_mem hu⟩

/-- Single queries as the children of a container: each mode binds all that the stricter one before
it binds, and has a match if that one has, whatever the kind of the nodes and the predicate look
at. -/
theorem evaluate_modes (m : Matcher) (sub : Subject) {children : List Query}
    (hsingles : ∀ q ∈ children, q.isSingle) :
    (∀ (t : Tree Nat) (s : State), s.WellScoped (.ofTree t) →
      let bound (mode : Mode) :=
        ((m.scene sub (.ofTree t)).evaluate (.container mode children) s).items.map State.bindings
      bound .exact ⊆ bound .ordered ∧ bound .ordered ⊆ bound .unordered ∧
        bound .unordered ⊆ bound .any) ∧
    let matched (mode : Mode) := m.hasMatch (.container mode children) sub
    (matched .exact → matched .ordered) ∧ (matched .ordered → matched .unordered) ∧
      (matched .unordered → matched .any) := by
  have hexact (t : Tree Nat) {s : State} (hs : s.WellScoped (.ofTree t)) :
      (m.scene sub (.ofTree t)).BindsWithin (.container .exact children)
        (.container .ordered children) s :=
    Scene.exact_bindsWithin_ordered hsingles rfl hs
  have hordered (t : Tree Nat) {s : State} (hs : s.WellScoped (.ofTree t)) :
      (m.scene sub (.ofTree t)).BindsWithin (.container .ordered children)
        (.container .unordered children) s :=
    Scene.ordered_bindsWithin_unordered hsingles rfl hs
  have hunordered (t : Tree Nat) (s : State) :
      (m.scene sub (.ofTree t)).BindsWithin (.container .unordered children)
        (.container .any children) s :=
    Scene.unordered_bindsWithin_any _ children s
  constructor
  · intro t s hs
    exact ⟨(hexact t hs).subset, (hordered t hs).subset, (hunordered t s).subset⟩
  · have hinitial (t : Tree Nat) := State.initial_wellScoped (t := t)
    exact ⟨hasMatch_of_bindsWithin fun t => hexact t (hinitial t),
      hasMatch_of_bindsWithin fun t => hordered t (hinitial t),
      hasMatch_of_bindsWithin fun t => hunordered t _⟩

/-- A node captured with what is below it, beside one whose property has to agree with that of the
first child, which is bound and which the cursor has passed. -/
theorem evaluate_modes_relational :
    let same (type : String) : Node := (Node.ofType type).setProperty "id" (.integer 7)
    let n : Node := .addChildren (.ofType "root")
      [.addChildren (same "p") [.ofType "x"], .addChildren (.ofType "a") [.ofType "x"], same "b"]
    let m : Matcher := { kind := .relational }
    let tree := LinkedTree.ofTree n.places
    let children : List Query :=
      [.single { type := some "a", capture := some "A" } (.leaf { capture := some "X" }),
        .leaf { properties := some (.ofList [("same_as", .text "Q")]), capture := some "B" }]
    let bound (mode : Mode) (s : State) :=
      ((m.scene (.ofNode n) tree).evaluate (.container mode children) s).items.map State.bindings
    let s : State := ⟨0, some 3, .ofList [("Q", 1)]⟩
    let b : Bindings := .ofList [("Q", 1), ("A", 3), ("X", 4), ("B", 5)]
    (∀ q ∈ children, q.isSingle) ∧ s.WellScoped tree ∧ b ∈ bound .exact s ∧
      b ∈ bound .ordered s ∧ b ∈ bound .unordered s ∧ b ∈ bound .any s := by
  intro same n m tree children bound s b
  have hsingles : ∀ q ∈ children, q.isSingle := by simp [children, Query.isSingle, Query.leaf]
  have hs : s.WellScoped tree := by
    intro c hc
    obtain rfl : 3 = c := Option.some.inj hc
    decide +kernel
  have hb : b ∈ bound .exact s := by
    refine List.mem_map.mpr ⟨⟨0, none, b⟩, ?_, rfl⟩
    rw [Scene.mem_evaluate_iff]
    decide +kernel
  obtain ⟨hexact, hordered, hunordered⟩ :=
    (evaluate_modes m (.ofNode n) hsingles).1 n.places s hs
  exact ⟨hsingles, hs, hb, hexact hb, hordered (hexact hb), hunordered (hordered (hexact hb))⟩

end Matcher

end TreeQuery
