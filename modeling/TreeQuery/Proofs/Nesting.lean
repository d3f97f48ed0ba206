import TreeQuery.Proofs.Chains
import TreeQuery.Proofs.Cursors
import TreeQuery.Proofs.ListEvaluation
import TreeQuery.Proofs.Places

/-! Containers inside containers of the same kind. Without its deduplications a chain is a
composition of its parts, so that a chain among the parts of another can be put in its place; the
deduplications come back at the end. An unordered container inside another starts where that one
does, and the later cursor is taken once more. -/

namespace TreeQuery

section Chains

variable {front inner : List Find} {nested : Find} {s : State}

/-- A part that finds what a chain finds can be replaced by the parts of that chain. -/
theorem chain_nested_eq (back : List Find)
    (h : ∀ u ∈ chain List.eraseDups front s, SameFirsts (nested u) (chain id inner u)) :
    chain List.eraseDups (front ++ [nested] ++ back) s =
      chain List.eraseDups (front ++ inner ++ back) s := by
  have hinner : SameFirsts ((chain id front s).flatMap nested)
      ((chain id front s).flatMap (chain id inner)) := by
    refine .flatMap_of_mem fun u hu => h u ?_
    rwa [chain_eraseDups_eq, List.mem_eraseDups]
  have hnested : chain id [nested] = nested := by
    funext u
    rw [chain_id_cons]
    exact List.flatMap_singleton' _
  rw [chain_eraseDups_eq, chain_eraseDups_eq, chain_id_append, chain_id_append, chain_id_append,
    chain_id_append, hnested]
  exact hinner.flatMap fun _ => .refl _

end Chains

namespace Scene

variable {scene : Scene} {t : Tree Nat} {s before u : State}

theorem results_ordered_nested (xs ys zs : List Query) (s : State) :
    scene.results (.container .ordered (xs ++ [.container .ordered ys] ++ zs)) s =
      scene.results (.container .ordered (xs ++ ys ++ zs)) s := by
  rw [results_ordered, results_ordered]
  simp only [List.map_append, List.map_singleton]
  refine chain_nested_eq _ fun u _ => ?_
  rw [results_ordered, chain_eraseDups_eq]
  exact .eraseDups _

theorem map_notBefore_anywhere (hscene : scene.tree = .ofTree t) (hs : s.WellScoped (.ofTree t))
    (hb : s.Advances (.ofTree t) before) (hu : s.Advances (.ofTree t) u) (q : Query) :
    (scene.anywhere s (scene.results q) u).map (·.notBefore scene.tree before) =
      scene.anywhere s (scene.results q) (u.notBefore scene.tree before) := by
  rw [anywhere, anywhere, State.startAt_notBefore, List.map_map]
  refine List.map_congr_left fun x hx => ?_
  have hx : s.Advances (.ofTree t) x := advances_of_mem_results_startAt hscene q hs hu hx
  rw [Function.comp_apply, hscene]
  exact State.notBefore_assoc hx.wellScoped.inTree hu.wellScoped.inTree hb.wellScoped.inTree

/-- Parts of an unordered container go from a later cursor to a later cursor. -/
theorem map_notBefore_chain (hscene : scene.tree = .ofTree t) (hs : s.WellScoped (.ofTree t))
    (hb : s.Advances (.ofTree t) before) (hu : s.Advances (.ofTree t) u) (qs : List Query) :
    (chain id (qs.map fun q => scene.anywhere s (scene.results q)) u).map
        (·.notBefore scene.tree before) =
      chain id (qs.map fun q => scene.anywhere s (scene.results q))
        (u.notBefore scene.tree before) := by
  induction qs generalizing u with
  | nil => rfl
  | cons q qs ih =>
    rw [List.map_cons, chain_id_cons, chain_id_cons, List.map_flatMap,
      ← map_notBefore_anywhere hscene hs hb hu, List.flatMap_map]
    exact List.flatMap_congr fun v hv => ih (advances_of_mem_anywhere_results hscene q hs hu hv)

theorem anywhere_unordered_sameFirsts (hscene : scene.tree = .ofTree t)
    (hs : s.WellScoped (.ofTree t)) (hb : s.Advances (.ofTree t) before) (ys : List Query) :
    SameFirsts (scene.anywhere s (scene.results (.container .unordered ys)) before)
      (chain id (ys.map fun q => scene.anywhere s (scene.results q)) before) := by
  have hstart := map_notBefore_chain hscene hs hb (hb.startAt hs) ys
  rw [hscene, State.startAt_notBefore_self hs hb, ← hscene] at hstart
  rw [anywhere, results_unordered, chain_eraseDups_eq, ← hstart]
  exact (SameFirsts.eraseDups _).map _

theorem results_unordered_nested (hscene : scene.tree = .ofTree t) (hs : s.WellScoped (.ofTree t))
    (xs ys zs : List Query) :
    scene.results (.container .unordered (xs ++ [.container .unordered ys] ++ zs)) s =
      scene.results (.container .unordered (xs ++ ys ++ zs)) s := by
  rw [results_unordered, results_unordered]
  simp only [List.map_append, List.map_singleton]
  refine chain_nested_eq _ fun before hbefore => anywhere_unordered_sameFirsts hscene hs ?_ ys
  exact forall_mem_chain (List.forall_mem_map.mpr fun q _ u hu r hr =>
    advances_of_mem_anywhere_results hscene q hs hu hr) hs.advances before hbefore

/-- A container among the children of another of its own kind finds, in the same order, what its
children find in its place. -/
theorem evaluate_nested_same_mode (hscene : scene.tree = .ofTree t) (hs : s.WellScoped scene.tree)
    (xs ys zs : List Query) :
    (scene.evaluate (.container .ordered (xs ++ [.container .ordered ys] ++ zs)) s).items =
        (scene.evaluate (.container .ordered (xs ++ ys ++ zs)) s).items ∧
      (scene.evaluate (.container .unordered (xs ++ [.container .unordered ys] ++ zs)) s).items =
        (scene.evaluate (.container .unordered (xs ++ ys ++ zs)) s).items :=
  ⟨results_ordered_nested xs ys zs s, results_unordered_nested hscene (hscene ▸ hs) xs ys zs⟩

/-- A child that goes far ahead, then two that go back, and one more after them. -/
theorem evaluate_nested_same_mode_going_back :
    let n : Node := .addChildren (.ofType "root")
      [.ofType "a", .addChildren (.ofType "b") [.ofType "a"], .ofType "c"]
    let scene := ({} : Matcher).scene (.ofNode n) (.ofTree n.places)
    let xs : List Query := [.leaf { type := some "b", capture := some "B" }]
    let ys : List Query := [.leaf { type := some "a", capture := some "A" },
      .leaf { type := some "b", capture := some "B" }]
    let zs : List Query := [.container .any [.leaf { type := some "c" }]]
    let s := State.initial scene.tree
    let r : State := ⟨0, none, .ofList [("A", 3), ("B", 2)]⟩
    s.WellScoped scene.tree ∧
      r ∈ (scene.evaluate (.container .unordered (xs ++ ys ++ zs)) s).items ∧
      r ∈ (scene.evaluate (.container .unordered
        (xs ++ [.container .unordered ys] ++ zs)) s).items := by
  intro n scene xs ys zs s r
  have hs : s.WellScoped scene.tree := State.initial_wellScoped
  have hr : r ∈ (scene.evaluate (.container .unordered (xs ++ ys ++ zs)) s).items := by
    rw [mem_evaluate_iff]
    decide +kernel
  exact ⟨hs, hr, (evaluate_nested_same_mode rfl hs xs ys zs).2 ▸ hr⟩

end Scene

end TreeQuery
