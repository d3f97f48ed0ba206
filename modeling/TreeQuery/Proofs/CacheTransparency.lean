import TreeQuery.Proofs.Results

/-! What a query finds depends only on the tree and on which nodes are accepted. Keeping what has
been searched before changes no result, neither its order nor how often it comes. -/

namespace TreeQuery

theorem Scene.results_congr {a b : Scene} (htree : a.tree = b.tree)
    (haccept : a.acceptance = b.acceptance) (q : Query) : a.results q = b.results q := by
  obtain ⟨tree, type, acceptance, _, _⟩ := a
  obtain ⟨_, _, _, _, _⟩ := b
  subst htree haccept
  induction q with
  | single f nested ih =>
    funext s
    rw [results_single, results_single, ih]
    rfl
  | container mode children ih =>
    funext s
    cases mode with
    | ordered => rw [results_ordered, results_ordered, List.map_congr_left ih]
    | unordered =>
      rw [results_unordered, results_unordered, List.map_congr_left]
      intro q hq
      rw [ih q hq]
      rfl
    | any => rw [results_any, results_any, List.map_congr_left ih]
    | optional => rw [results_optional, results_optional, List.map_congr_left ih]
    | exact =>
      rw [results_exact, results_exact, List.map_congr_left]
      intro part hp
      rw [stretch, ih part.1 (Query.mem_of_mem_stretches hp)]
      rfl

/-- With the cache on and off, every evaluation finds the same states and every search the same
matches, in the same order. -/
theorem Matcher.replayCache_transparent (m : Matcher) (q : Query) (s : Subject) :
    (∀ (tree : LinkedTree) (start : State),
      (({ m with config := ⟨true⟩ }.scene s tree).evaluate q start).items =
        (({ m with config := ⟨false⟩ }.scene s tree).evaluate q start).items) ∧
    ({ m with config := ⟨true⟩ }.search q s).items =
      ({ m with config := ⟨false⟩ }.search q s).items := by
  have hresults : ∀ tree, ({ m with config := ⟨true⟩ }.scene s tree).results q =
      ({ m with config := ⟨false⟩ }.scene s tree).results q := by
    intro tree
    apply Scene.results_congr <;> rfl
  refine ⟨fun tree start => congrFun (hresults tree) start, ?_⟩
  simp only [items_search, hresults]

end TreeQuery
