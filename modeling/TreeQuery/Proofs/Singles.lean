import TreeQuery.Proofs.CaptureFree

/-! What a single query finds: the nodes that it takes among the candidates, each under the bindings
of its start, and what its nested query binds below them. -/

namespace TreeQuery

namespace Scene

/-- A single query takes a node under the bindings `b`, and goes on with `c`. -/
structure Consumes (scene : Scene) (f : Filter) (nested : Query) (id : Nat) (b c : Bindings) :
    Prop where
  accepted : scene.acceptance f (scene.tree.node id) b
  bound : ∀ name n, f.capture = some name → b.get? name = some n → n = scene.tree.node id
  nested : ∃ x ∈ scene.results nested
    ⟨id, scene.tree.firstChild? id, b.bind f.capture (scene.tree.node id)⟩, x.bindings = c

variable {scene : Scene} {s r : State}

theorem accepts_iff {f : Filter} {id : Nat} :
    scene.accepts f s id ↔ scene.acceptance f (scene.tree.node id) s.bindings ∧
      ∀ name n, f.capture = some name → s.bindings.get? name = some n →
        n = scene.tree.node id := by
  simp only [accepts, Bool.and_eq_true, Option.all_eq_true, beq_iff_eq]
  exact and_congr_right'
    ⟨fun h name n hname => h name hname n, fun h name hname n => h name n hname⟩

theorem mem_below_iff {f : Filter} {captures : Bool} {find : Find} {id : Nat}
    (hfind : captures = false → ∀ x ∈ find (s.enter scene.tree f.capture id),
      x.bindings = (s.enter scene.tree f.capture id).bindings) :
    r ∈ scene.below f captures find s id ↔
      ∃ x ∈ find (s.enter scene.tree f.capture id),
        r = (s.past scene.tree id).withBindings x.bindings := by
  refine ⟨exists_of_mem_below, ?_⟩
  rintro ⟨x, hx, rfl⟩
  refine List.mem_map_of_mem ?_
  cases captures with
  | true => exact List.mem_eraseDups.mpr (List.mem_map_of_mem hx)
  | false =>
    cases hfound : find (s.enter scene.tree f.capture id) with
    | nil => simp [hfound] at hx
    | cons y rest =>
      have hy := hfind rfl y (by simp [hfound])
      simp [hfind rfl x hx, hy]

theorem mem_results_single_iff {f : Filter} {nested : Query} :
    r ∈ scene.results (.single f nested) s ↔
      ∃ id ∈ (scene.candidates f s).items, scene.Consumes f nested id s.bindings r.bindings ∧
        r = (s.past scene.tree id).withBindings r.bindings := by
  have hbelow (id : Nat) : (Query.single f nested).hasCaptures = false →
      ∀ x ∈ scene.results nested (s.enter scene.tree f.capture id),
        x.bindings = (s.enter scene.tree f.capture id).bindings := by
    intro hnone x hx
    rw [Query.hasCaptures, Bool.or_eq_false_iff] at hnone
    exact bindings_of_mem_results hnone.2 hx
  rw [results_single]
  simp only [List.mem_flatMap]
  refine exists_congr fun id => and_congr_right fun _ => ?_
  split
  next haccepts =>
    rw [mem_below_iff (hbelow id)]
    obtain ⟨haccepted, hbound⟩ := accepts_iff.mp haccepts
    constructor
    · rintro ⟨x, hx, rfl⟩
      exact ⟨⟨haccepted, hbound, x, hx, rfl⟩, rfl⟩
    · rintro ⟨⟨_, _, x, hx, he⟩, hr⟩
      exact ⟨x, hx, he ▸ hr⟩
  next haccepts =>
    simp only [List.not_mem_nil, false_iff, not_and]
    intro h
    exact absurd (accepts_iff.mpr ⟨h.accepted, h.bound⟩) haccepts

end Scene

end TreeQuery
