import Mathlib.Data.Set.Card
import TreeQuery.Proofs.CaptureFree
import TreeQuery.Proofs.Candidates
import TreeQuery.Proofs.Chains
import TreeQuery.Proofs.Combinations

/-! How much a query can find. No container finds a state twice. Without captures all that is found
differs by its cursor alone, which is one of the ids still ahead or past them all; and of a match
nothing is left but that there is one. -/

namespace TreeQuery

namespace Scene

variable {scene : Scene} {t : Tree Nat} {s : State} {found : List State}

theorem nodup_results_container (mode : Mode) (children : List Query) (s : State) :
    (scene.results (.container mode children) s).Nodup := by
  cases mode with
  | ordered =>
    rw [results_ordered]
    exact nodup_chain _ s
  | unordered =>
    rw [results_unordered]
    exact nodup_chain _ s
  | any =>
    rw [results_any]
    split
    · exact List.nodup_singleton s
    · exact nodup_accumulated _ s
  | optional =>
    rw [results_optional]
    dsimp only
    split
    · exact List.nodup_singleton s
    · exact nodup_accumulated _ s
  | exact =>
    rw [results_exact]
    dsimp only
    split
    · exact (nodup_chain _ s).filter _
    · exact nodup_chain _ s

theorem ncard_reaches (hs : s.WellScoped (.ofTree t)) :
    {id | s.Reaches (.ofTree t) id}.ncard = (s.ahead t).length := by
  have hset : {id | s.Reaches (.ofTree t) id} = ((s.ahead t).toFinset : Set Nat) := by
    ext id
    rw [List.coe_toFinset]
    exact (State.mem_ahead_iff hs).symm
  have hids : (s.ahead t).Nodup := (State.pairwise_ahead t s).imp fun h => Nat.ne_of_lt h
  rw [hset, Set.ncard_coe_finset, List.toFinset_card_of_nodup hids]

/-- States that differ by nothing but where they are in the scope of `s`. -/
theorem length_le_of_bindings_eq (hs : s.WellScoped (.ofTree t)) (hnodup : found.Nodup)
    (hfound : ∀ r ∈ found, s.Advances (.ofTree t) r ∧ r.bindings = s.bindings) :
    found.length ≤ {id | s.Reaches (.ofTree t) id}.ncard + 1 := by
  have hplace : ∀ r ∈ found, ∀ r' ∈ found, r.cursor = r'.cursor → r = r' := by
    rintro ⟨root, cursor, bindings⟩ hr ⟨root', cursor', bindings'⟩ hr' (rfl : cursor = cursor')
    obtain ⟨hadvances, hbindings⟩ := hfound _ hr
    obtain ⟨hadvances', hbindings'⟩ := hfound _ hr'
    obtain rfl : root = root' := hadvances.root_eq.trans hadvances'.root_eq.symm
    obtain rfl : bindings = bindings' := hbindings.trans hbindings'.symm
    rfl
  have hcursors : (found.map State.cursor).Nodup :=
    hnodup.map_on fun r hr r' hr' => hplace r hr r' hr'
  have hsubset : found.map State.cursor ⊆ none :: (s.ahead t).map some := by
    intro cursor hcursor
    obtain ⟨r, hr, rfl⟩ := List.mem_map.mp hcursor
    cases hc : r.cursor with
    | none => exact List.mem_cons_self
    | some d =>
      have hd := (State.mem_ahead_iff hs).mpr ((hfound r hr).1.cursor d hc)
      exact List.mem_cons_of_mem _ (List.mem_map_of_mem hd)
  calc found.length
      = (found.map State.cursor).length := (List.length_map _).symm
    _ ≤ (none :: (s.ahead t).map some).length := hcursors.length_le_of_subset hsubset
    _ = {id | s.Reaches (.ofTree t) id}.ncard + 1 := by
      rw [List.length_cons, List.length_map, ncard_reaches hs]

end Scene

namespace Matcher

theorem eq_empty_of_mem_search (m : Matcher) {q : Query} (hnone : q.hasCaptures = false)
    (sub : Subject) : ∀ b ∈ (m.search q sub).items, b = .empty := by
  intro b hb
  rw [items_search, List.mem_eraseDups] at hb
  obtain ⟨t, _, hb⟩ := List.mem_flatMap.mp hb
  obtain ⟨r, hr, rfl⟩ := List.mem_map.mp hb
  exact Scene.bindings_of_mem_results hnone hr

theorem nodup_items_search (m : Matcher) (q : Query) (sub : Subject) :
    (m.search q sub).items.Nodup := by
  rw [items_search]
  exact nodup_eraseDups _

/-- No container finds a state twice. One that captures nothing finds at most one state for each id
of the scope that is not before the cursor, and one more. Any query that captures nothing has at
most one match, of no bindings. -/
theorem evaluate_bounded (m : Matcher) (sub : Subject) :
    (∀ (t : Tree Nat) (s : State) (mode : Mode) (children : List Query),
      let scene := m.scene sub (.ofTree t)
      let q := Query.container mode children
      let found := (scene.evaluate q s).items
      s.WellScoped scene.tree →
        found.Nodup ∧
          (q.hasCaptures = false → found.length ≤ {id | s.Reaches scene.tree id}.ncard + 1)) ∧
    ∀ q : Query, q.hasCaptures = false →
      (m.search q sub).items = [] ∨ (m.search q sub).items = [.empty] := by
  constructor
  · intro t s mode children scene q found hs
    have hnodup : found.Nodup := scene.nodup_results_container mode children s
    refine ⟨hnodup, fun hnone => ?_⟩
    exact Scene.length_le_of_bindings_eq hs hnodup fun r hr =>
      ⟨Scene.advances_of_mem_results rfl q hs hr, Scene.bindings_of_mem_results hnone hr⟩
  · intro q hnone
    have hempty := m.eq_empty_of_mem_search hnone sub
    have honly := eraseDups_of_forall_eq hempty
    rw [eraseDups_eq_self (m.nodup_items_search q sub)] at honly
    rw [honly]
    split
    · exact .inl rfl
    · exact .inr rfl

/-- The bound is reached: a child that consumes nothing, and one that takes either of two nodes. -/
theorem evaluate_bounded_two_nodes :
    let n : Node := .addChildren (.ofType "root") [.ofType "a", .ofType "b"]
    let m : Matcher := {}
    let scene := m.scene (.ofNode n) (.ofTree n.places)
    let q : Query := .container .any [.empty, .leaf {}]
    let s := State.initial scene.tree
    let found := (scene.evaluate q s).items
    s.WellScoped scene.tree ∧ q.hasCaptures = false ∧ found.length = 3 ∧
      found.length ≤ {id | s.Reaches scene.tree id}.ncard + 1 ∧
      ((m.search q (.ofNode n)).items = [] ∨ (m.search q (.ofNode n)).items = [.empty]) := by
  intro n m scene q s found
  have hs : s.WellScoped scene.tree := State.initial_wellScoped
  have hnone : q.hasCaptures = false := by decide
  have hfound : found.length = 3 := by
    change (scene.results q s).length = 3
    rw [Scene.results_eq_find]
    decide +kernel
  obtain ⟨hcontainer, hmatches⟩ := evaluate_bounded m (.ofNode n)
  exact ⟨hs, hnone, hfound, (hcontainer n.places s .any [.empty, .leaf {}] hs).2 hnone,
    hmatches q hnone⟩

end Matcher

end TreeQuery
