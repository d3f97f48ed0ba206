import TreeQuery.Proofs.Cursors
import TreeQuery.Proofs.FirstOccurrences
import TreeQuery.Proofs.ListEvaluation
import TreeQuery.Proofs.Places

/-! Containers of one child. Whether it has to match or may, and whether it goes on or goes back to
the start, it starts where the container starts, and what it finds is what the container finds. -/

namespace TreeQuery

theorem State.notBefore_start {t : Tree Nat} {s r : State} (hs : s.WellScoped (.ofTree t))
    (hr : s.Advances (.ofTree t) r) : r.notBefore (.ofTree t) s = r := by
  rw [notBefore_eq hr.wellScoped.inTree hs.inTree]
  obtain ⟨root, cursor, bindings⟩ := r
  cases cursor with
  | none => rfl
  | some d =>
    obtain ⟨_, c, hc, hcd⟩ := hr.cursor d rfl
    rw [hc, Option.bind_some, Option.map_some, Nat.max_eq_left hcd]

theorem chain_singleton (keep : List State → List State) (part : Find) (s : State) :
    chain keep [part] s = keep (part s) := by
  rw [chain, List.foldl_cons, List.foldl_nil, List.flatMap_singleton]

namespace Scene

variable {scene : Scene} {t : Tree Nat} {s : State}

theorem accumulated_singleton (part : Find) (s : State) :
    accumulated [part] s = (part s).eraseDups := by
  rw [accumulated, List.foldl_cons, List.foldl_nil, widened, List.nil_append, List.map_nil,
    eraseDups_eq_self (List.nodup_singleton s), List.flatMap_singleton]

/-- From the start of a container nothing goes back, and no cursor has to be kept. -/
theorem anywhere_results_start (hscene : scene.tree = .ofTree t) (hs : s.WellScoped (.ofTree t))
    (q : Query) : scene.anywhere s (scene.results q) s = scene.results q s := by
  have hstart : s.startAt s = s := rfl
  have hkept : ∀ r ∈ scene.results q s, r.notBefore scene.tree s = r := by
    intro r hr
    rw [hscene]
    exact State.notBefore_start hs (advances_of_mem_results hscene q hs hr)
  rw [anywhere, hstart, List.map_congr_left hkept, List.map_id']

/-- An ordered, an unordered and an `any` container of one child find the same, in the same order:
the first occurrences of what the child finds. -/
theorem evaluate_lone_child (hscene : scene.tree = .ofTree t) (hs : s.WellScoped scene.tree)
    (q : Query) :
    let found := (scene.evaluate q s).items.eraseDups
    (scene.evaluate (.container .ordered [q]) s).items = found ∧
      (scene.evaluate (.container .unordered [q]) s).items = found ∧
      (scene.evaluate (.container .any [q]) s).items = found := by
  rw [hscene] at hs
  change scene.results (.container .ordered [q]) s = (scene.results q s).eraseDups ∧
    scene.results (.container .unordered [q]) s = (scene.results q s).eraseDups ∧
    scene.results (.container .any [q]) s = (scene.results q s).eraseDups
  refine ⟨?_, ?_, ?_⟩
  · rw [results_ordered, List.map_singleton, chain_singleton]
  · rw [results_unordered, List.map_singleton, chain_singleton, anywhere_results_start hscene hs]
  · rw [results_any, if_neg (by simp), List.map_singleton, accumulated_singleton]

/-- The same state is found at two candidates, the second of them inside the first. -/
theorem evaluate_lone_child_repeated :
    let n : Node := .addChildren (.ofType "root")
      [.addChildren (.ofType "a") [.ofType "a"], .ofType "b"]
    let scene := ({} : Matcher).scene (.ofNode n) (.ofTree n.places)
    let q := Query.leaf { type := some "a" }
    let s := State.initial scene.tree
    let r : State := ⟨0, some 3, .empty⟩
    s.WellScoped scene.tree ∧ (scene.evaluate q s).items = [r, r] ∧
      (scene.evaluate (.container .unordered [q]) s).items = [r] := by
  intro n scene q s r
  have hs : s.WellScoped scene.tree := State.initial_wellScoped
  have hq : (scene.evaluate q s).items = [r, r] := by
    change scene.results q s = [r, r]
    rw [results_eq_find]
    decide +kernel
  refine ⟨hs, hq, ?_⟩
  rw [(evaluate_lone_child rfl hs q).2.1, hq]
  decide +kernel

end Scene

end TreeQuery
