import TreeQuery.Proofs.FirstOccurrences
import TreeQuery.Proofs.Results

/-! Searches that go through the same states up to a change of each state. What a container makes of
its children's results is changed in the same way, if no two states become one and a state starts
where another does after the change just as before. -/

namespace TreeQuery

variable {ι : Type} {move : State → State} {P : State → Prop} {parts : List ι}
  {find own : ι → Find} {s : State}

/-- The same states after the change, and what is known of them before it. -/
def Moved (move : State → State) (P : State → Prop) (moved found : List State) : Prop :=
  moved = found.map move ∧ ∀ r ∈ found, P r

theorem flatMap_moved {α : Type} {shift : α → α} {find own : α → List State} {items : List α}
    (h : ∀ a ∈ items, find (shift a) = (own a).map move) :
    (items.map shift).flatMap find = (items.flatMap own).map move := by
  induction items with
  | nil => rfl
  | cons a rest ih =>
    obtain ⟨ha, hrest⟩ := List.forall_mem_cons.mp h
    rw [List.map_cons, List.flatMap_cons, List.flatMap_cons, List.map_append, ha, ih hrest]

variable (move)

theorem chain_moved (hmove : ∀ s r, move s = move r → s = r)
    (h : ∀ i ∈ parts, ∀ s, P s → find i (move s) = (own i s).map move)
    (hkeep : ∀ i ∈ parts, ∀ s, P s → ∀ r ∈ own i s, P r) (hs : P s) :
    chain List.eraseDups (parts.map find) (move s) =
      (chain List.eraseDups (parts.map own) s).map move := by
  have hmoved : Moved move P (chain List.eraseDups (parts.map find) (move s))
      (chain List.eraseDups (parts.map own) s) := by
    have hfirst : Moved move P [move s] [s] := ⟨rfl, by simpa using hs⟩
    rw [chain, chain, List.foldl_map, List.foldl_map]
    apply List.foldl_rel (r := Moved move P) hfirst
    rintro i hi _ found ⟨rfl, hfound⟩
    refine ⟨?_, forall_mem_flatMap_eraseDups (hkeep i hi) hfound⟩
    rw [flatMap_moved fun r hr => h i hi r (hfound r hr), eraseDups_map hmove]
  exact hmoved.1

theorem widened_moved (hmove : ∀ s r, move s = move r → s = r)
    (hstart : ∀ r s, (move r).startAt (move s) = move (r.startAt s)) {find own : Find}
    {found : List State} (h : ∀ seed ∈ (s :: found.map (·.startAt s)).eraseDups,
      find (move seed) = (own seed).map move) :
    Scene.widened (move s) (found.map move) find = (Scene.widened s found own).map move := by
  have hseeds : move s :: (found.map move).map (·.startAt (move s)) =
      (s :: found.map (·.startAt s)).map move := by
    rw [List.map_cons, List.map_map, List.map_map]
    exact congrArg _ (List.map_congr_left fun r _ => hstart r s)
  rw [Scene.widened, Scene.widened, hseeds, eraseDups_map hmove, flatMap_moved h,
    ← List.map_append, eraseDups_map hmove]

theorem accumulated_moved (hmove : ∀ s r, move s = move r → s = r)
    (hstart : ∀ r s, (move r).startAt (move s) = move (r.startAt s))
    (h : ∀ i ∈ parts, ∀ s, P s → find i (move s) = (own i s).map move)
    (hkeep : ∀ i ∈ parts, ∀ s, P s → ∀ r ∈ own i s, P r) (hs : P s)
    (hstarts : ∀ r, P r → P (r.startAt s)) :
    Scene.accumulated (parts.map find) (move s) =
      (Scene.accumulated (parts.map own) s).map move := by
  have hmoved : Moved move P (Scene.accumulated (parts.map find) (move s))
      (Scene.accumulated (parts.map own) s) := by
    have hnothing : Moved move P [] [] := ⟨rfl, by simp⟩
    rw [Scene.accumulated, Scene.accumulated, List.foldl_map, List.foldl_map]
    apply List.foldl_rel (r := Moved move P) hnothing
    rintro i hi _ found ⟨rfl, hfound⟩
    refine ⟨widened_moved move hmove hstart fun seed hseed => ?_,
      Scene.forall_mem_widened (hkeep i hi) hs hstarts hfound⟩
    exact h i hi seed (forall_mem_seeds hs hstarts hfound seed hseed)
  exact hmoved.1

end TreeQuery
