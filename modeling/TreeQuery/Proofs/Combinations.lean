import Mathlib.Data.Fin.VecNotation
import Mathlib.Data.List.Induction
import Mathlib.Order.Fin.Basic
import TreeQuery.Proofs.FirstOccurrences
import TreeQuery.Proofs.ListEvaluation
import TreeQuery.Proofs.Places

/-! What an `any` container tries: some of its children, at least one, in their order. The first of
them starts where the container starts, and so does each other, with all that has been bound before
it. Every such choice is tried, and nothing else is found. -/

namespace TreeQuery

namespace Scene

/-- A state that some of the queries find one after the other, the last of them the one at `i`. -/
inductive Combines (scene : Scene) (qs : List Query) (s : State) : (i : Nat) → (r : State) → Prop
  | first {i q r} (hq : qs[i]? = some q) (hr : r ∈ scene.results q s) : Combines scene qs s i r
  | next {i j q u r} (hu : Combines scene qs s i u) (hij : i < j) (hq : qs[j]? = some q)
      (hr : r ∈ scene.results q (u.startAt s)) : Combines scene qs s j r

variable {scene : Scene} {qs front : List Query} {last : Query} {s r : State} {i : Nat}

theorem Combines.lt_length (h : scene.Combines qs s i r) : i < qs.length := by
  cases h with
  | first hq _ => exact (List.getElem?_eq_some_iff.mp hq).1
  | next _ _ hq _ => exact (List.getElem?_eq_some_iff.mp hq).1

theorem Combines.append (h : scene.Combines front s i r) (back : List Query) :
    scene.Combines (front ++ back) s i r := by
  have hsome {j : Nat} {q : Query} (hq : front[j]? = some q) : (front ++ back)[j]? = some q :=
    (List.getElem?_append_left (List.getElem?_eq_some_iff.mp hq).1).trans hq
  induction h with
  | first hq hr => exact .first (hsome hq) hr
  | next _ hij hq hr ih => exact .next ih hij (hsome hq) hr

theorem Combines.of_append {back : List Query} (h : scene.Combines (front ++ back) s i r)
    (hi : i < front.length) : scene.Combines front s i r := by
  induction h with
  | first hq hr =>
    rw [List.getElem?_append_left hi] at hq
    exact .first hq hr
  | next _ hij hq hr ih =>
    rw [List.getElem?_append_left hi] at hq
    exact .next (ih (Nat.lt_trans hij hi)) hij hq hr

/-- What the last query is the last to find. -/
theorem combines_length_iff : scene.Combines (front ++ [last]) s front.length r ↔
    r ∈ scene.results last s ∨
      ∃ u, (∃ i, scene.Combines front s i u) ∧ r ∈ scene.results last (u.startAt s) := by
  have hlast : (front ++ [last])[front.length]? = some last := by simp
  constructor
  · intro h
    cases h with
    | first hq hr =>
      obtain rfl := Option.some.inj (hlast.symm.trans hq)
      exact .inl hr
    | next hu hij hq hr =>
      obtain rfl := Option.some.inj (hlast.symm.trans hq)
      exact .inr ⟨_, ⟨_, hu.of_append hij⟩, hr⟩
  · rintro (hr | ⟨u, ⟨i, hu⟩, hr⟩)
    · exact .first hlast hr
    · exact .next (hu.append [last]) hu.lt_length hlast hr

theorem exists_combines_concat_iff : (∃ i, scene.Combines (front ++ [last]) s i r) ↔
    (∃ i, scene.Combines front s i r) ∨ scene.Combines (front ++ [last]) s front.length r := by
  constructor
  · rintro ⟨i, h⟩
    have hlt := h.lt_length
    rw [List.length_append, List.length_singleton] at hlt
    rcases Nat.lt_or_eq_of_le (Nat.le_of_lt_succ hlt) with hi | rfl
    · exact .inl ⟨i, h.of_append hi⟩
    · exact .inr h
  · rintro (⟨i, h⟩ | h)
    · exact ⟨i, h.append [last]⟩
    · exact ⟨front.length, h⟩

theorem mem_accumulated_iff :
    r ∈ accumulated (qs.map scene.results) s ↔ ∃ i, scene.Combines qs s i r := by
  induction qs using List.reverseRecOn generalizing r with
  | nil =>
    constructor
    · simp [accumulated]
    · rintro ⟨i, h⟩
      exact absurd h.lt_length (Nat.not_lt_zero i)
  | append_singleton front last ih =>
    rw [List.map_append, List.map_singleton, mem_accumulated_concat_iff,
      exists_combines_concat_iff, combines_length_iff]
    simp only [ih]

theorem nodup_accumulated (parts : List Find) (s : State) : (accumulated parts s).Nodup := by
  rcases List.eq_nil_or_concat parts with rfl | ⟨front, last, rfl⟩
  · exact .nil
  · rw [List.concat_eq_append, accumulated_concat]
    exact nodup_eraseDups _

section Choices

variable {m : Nat} {i : Fin (m + 1) → Fin qs.length} {x : Fin (m + 1) → State}

/-- Queries at rising places, and what they find one after the other. -/
structure Chooses (scene : Scene) (qs : List Query) (s : State) (i : Fin (m + 1) → Fin qs.length)
    (x : Fin (m + 1) → State) : Prop where
  rising : StrictMono i
  first : x 0 ∈ (scene.evaluate (qs.get (i 0)) s).items
  next : ∀ j : Fin m,
    x j.succ ∈ (scene.evaluate (qs.get (i j.succ)) ((x j.castSucc).startAt s)).items

theorem Chooses.single {i : Fin qs.length}
    (hr : r ∈ (scene.evaluate (qs.get i) s).items) :
    scene.Chooses qs s (m := 0) (fun _ => i) fun _ => r where
  rising := Fin.strictMono_iff_lt_succ.mpr fun j => j.elim0
  first := hr
  next := fun j => j.elim0

theorem Chooses.snoc (h : scene.Chooses qs s i x) {k : Fin qs.length} (hk : i (Fin.last m) < k)
    (hr : r ∈ (scene.evaluate (qs.get k) ((x (Fin.last m)).startAt s)).items) :
    scene.Chooses qs s (m := m + 1) (Fin.snoc i k) (Fin.snoc x r) where
  rising := by
    rw [Fin.strictMono_iff_lt_succ]
    intro j
    cases j using Fin.lastCases with
    | last => simpa using hk
    | cast j => simpa [← Fin.castSucc_succ] using h.rising j.castSucc_lt_succ
  first := by
    simpa using h.first
  next := by
    intro j
    cases j using Fin.lastCases with
    | last => simpa using hr
    | cast j => simpa [← Fin.castSucc_succ] using h.next j

theorem Chooses.combines (h : scene.Chooses qs s i x) (j : Fin (m + 1)) :
    scene.Combines qs s (i j) (x j) := by
  induction j using Fin.induction with
  | zero => exact .first (List.getElem?_eq_getElem _) h.first
  | succ j ih =>
    exact .next ih (h.rising j.castSucc_lt_succ) (List.getElem?_eq_getElem _) (h.next j)

theorem Combines.exists_chooses {k : Nat} (h : scene.Combines qs s k r) :
    ∃ (m : Nat) (i : Fin (m + 1) → Fin qs.length) (x : Fin (m + 1) → State),
      scene.Chooses qs s i x ∧ x (Fin.last m) = r ∧ i (Fin.last m) = k := by
  induction h with
  | first hq hr =>
    obtain ⟨hi, rfl⟩ := List.getElem?_eq_some_iff.mp hq
    exact ⟨0, _, _, .single (i := ⟨_, hi⟩) hr, rfl, rfl⟩
  | next _ hij hq hr ih =>
    obtain ⟨hj, rfl⟩ := List.getElem?_eq_some_iff.mp hq
    obtain ⟨m, i, x, hchooses, rfl, rfl⟩ := ih
    exact ⟨m + 1, _, _, hchooses.snoc (k := ⟨_, hj⟩) hij hr, by simp, by simp⟩

theorem exists_combines_iff : (∃ k, scene.Combines qs s k r) ↔
    ∃ (m : Nat) (i : Fin (m + 1) → Fin qs.length) (x : Fin (m + 1) → State),
      scene.Chooses qs s i x ∧ x (Fin.last m) = r := by
  constructor
  · rintro ⟨k, h⟩
    obtain ⟨m, i, x, hchooses, hr, -⟩ := h.exists_chooses
    exact ⟨m, i, x, hchooses, hr⟩
  · rintro ⟨m, i, x, hchooses, rfl⟩
    exact ⟨i (Fin.last m), hchooses.combines (Fin.last m)⟩

end Choices

theorem results_optional_eq (hqs : qs ≠ []) (s : State) :
    scene.results (.container .optional qs) s =
      if scene.results (.container .any qs) s = [] then [s]
      else scene.results (.container .any qs) s := by
  rw [results_optional, results_any, if_neg (mt List.isEmpty_iff.mp hqs)]
  simp only [List.isEmpty_iff]

/-- An `any` container finds exactly what can be found by some of its children, one after the other,
each from where the container starts, and each state once. An `optional` one finds the same, or the
start alone if that is nothing. -/
theorem evaluate_any_combines (scene : Scene) {qs : List Query} (hqs : qs ≠ []) (s : State) :
    let found := (scene.evaluate (.container .any qs) s).items
    (∀ r, r ∈ found ↔
      ∃ (m : Nat) (i : Fin (m + 1) → Fin qs.length) (x : Fin (m + 1) → State),
        scene.Chooses qs s i x ∧ x (Fin.last m) = r) ∧
    found.Nodup ∧
    (scene.evaluate (.container .optional qs) s).items = if found = [] then [s] else found := by
  have hfound : scene.results (.container .any qs) s = accumulated (qs.map scene.results) s := by
    rw [results_any, if_neg (mt List.isEmpty_iff.mp hqs)]
  refine ⟨fun r => ?_, ?_, results_optional_eq hqs s⟩
  · rw [← exists_combines_iff, ← mem_accumulated_iff, ← hfound]
    rfl
  · change (scene.results (.container .any qs) s).Nodup
    rw [hfound]
    exact nodup_accumulated _ s

/-- The first and the last of three children, the last of them going back to the start. -/
theorem evaluate_any_combines_first_and_last :
    let n : Node := .addChildren (.ofType "root") [.ofType "a", .ofType "b", .ofType "c"]
    let m : Matcher := {}
    let scene := m.scene (.ofNode n) (.ofTree n.places)
    let qs : List Query := [.leaf { type := some "c", capture := some "C" },
      .leaf { type := some "b", capture := some "B" },
      .leaf { type := some "a", capture := some "A" }]
    let s := State.initial scene.tree
    let x : Fin 2 → State := ![⟨0, none, .ofList [("C", 3)]⟩,
      ⟨0, some 2, .ofList [("A", 1), ("C", 3)]⟩]
    qs ≠ [] ∧ scene.Chooses qs s ![0, 2] x ∧
      x 1 ∈ (scene.evaluate (.container .any qs) s).items ∧
      (scene.evaluate (.container .any qs) s).items.Nodup := by
  intro n m scene qs s x
  have hqs : qs ≠ [] := List.cons_ne_nil _ _
  have hx : scene.Chooses qs s ![0, 2] x := by
    refine ⟨by decide, ?_, fun j => ?_⟩
    · rw [mem_evaluate_iff]
      decide +kernel
    · obtain rfl := Fin.fin_one_eq_zero j
      rw [mem_evaluate_iff]
      decide +kernel
  obtain ⟨hfound, hnodup, -⟩ := evaluate_any_combines scene hqs s
  exact ⟨hqs, hx, (hfound _).mpr ⟨1, _, x, hx, rfl⟩, hnodup⟩

end Scene

end TreeQuery
