import Mathlib.Data.ENat.Lattice
import Mathlib.Data.Finset.Lattice.Fold
import TreeQuery.Replay

/-! What a replay makes of its source: the items before the first `none`, of which it keeps as many
as the reader furthest ahead has asked for. -/

namespace TreeQuery

namespace Source

variable {σ ε α : Type} [Source σ ε α]

def answer (s : σ) (k : Nat) : Option α := (pull (after k s)).item

/-- How many items come before the first `none`. -/
noncomputable def length (s : σ) : ℕ∞ := ⨅ k : {k : Nat // answer s k = none}, (k : ℕ∞)

/-- The items before the first `none`, in order, and then only `none`. -/
def item? (s : σ) (k : Nat) : Option α :=
  if ∀ j < k, (answer s j).isSome then answer s k else none

/-- The number of items that somebody has got who has asked `calls` times. -/
def served (s : σ) : (calls : Nat) → Nat
  | 0 => 0
  | calls + 1 =>
    if served s calls = calls ∧ (answer s calls).isSome then calls + 1 else served s calls

def asked (s : σ) (calls : Nat) : Nat := min (served s calls + 1) calls

variable {s : σ} {k n m : Nat}

theorem after_succ (count : Nat) (s : σ) : after (count + 1) s = (pull (after count s)).rest := by
  induction count generalizing s with
  | zero => rfl
  | succ count ih =>
    have h := ih (pull s).rest
    exact h

theorem pulls_succ (count : Nat) (s : σ) :
    pulls (count + 1) s =
      pulls count s ++ [((pull (after count s)).notes, (pull (after count s)).item)] := by
  induction count generalizing s with
  | zero => rfl
  | succ count ih =>
    have h := ih (pull s).rest
    rw [pulls, h]
    rfl

theorem served_le (s : σ) (n : Nat) : served s n ≤ n := by
  induction n with
  | zero => exact Nat.le_refl 0
  | succ n ih =>
    rw [served]
    split
    · exact Nat.le_refl _
    · omega

theorem isSome_of_lt_served (h : k < served s n) : (answer s k).isSome := by
  induction n with
  | zero => simp [served] at h
  | succ n ih =>
    rw [served] at h
    split at h
    next hn =>
      by_cases hk : k = n
      · exact hk ▸ hn.2
      · exact ih (by omega)
    next => exact ih h

theorem answer_served (h : served s n < n) : answer s (served s n) = none := by
  induction n with
  | zero => omega
  | succ n ih =>
    have hle := served_le s n
    by_cases hn : served s n = n ∧ (answer s n).isSome
    · rw [served, if_pos hn] at h
      omega
    · rw [served, if_neg hn]
      by_cases he : served s n = n
      · have hnone : (answer s n).isSome = false := by simpa [he] using hn
        simpa [he] using hnone
      · exact ih (by omega)

theorem served_of_le (h : n ≤ m) : served s n = min (served s m) n := by
  induction m with
  | zero =>
    obtain rfl : n = 0 := by omega
    rfl
  | succ m ih =>
    by_cases hn : n = m + 1
    · have := served_le s (m + 1)
      subst hn
      omega
    · have hm := ih (by omega)
      rw [served]
      split
      next h => omega
      next => exact hm

theorem isSome_of_served_eq (h : served s n = n) : ∀ j < n, (answer s j).isSome := by
  intro j hj
  exact isSome_of_lt_served (h.symm ▸ hj)

theorem served_eq_iff : served s n = n ↔ ∀ j < n, (answer s j).isSome := by
  refine ⟨isSome_of_served_eq, fun h => ?_⟩
  have hle := served_le s n
  by_contra hne
  have hlt : served s n < n := by omega
  have hnone := answer_served hlt
  have hsome := h _ hlt
  simp [hnone] at hsome

theorem item?_eq : item? s k = if served s k = k then answer s k else none := by
  by_cases h : served s k = k
  · rw [item?, if_pos (served_eq_iff.mp h), if_pos h]
  · rw [item?, if_neg (mt served_eq_iff.mpr h), if_neg h]

theorem served_succ (s : σ) (k : Nat) :
    served s (k + 1) = if (item? s k).isSome then served s k + 1 else served s k := by
  rw [served, item?_eq]
  by_cases h : served s k = k
  · simp [h]
  · simp [h]

theorem item?_eq_none_of_served_lt (h : served s n < n) (hk : served s n ≤ k) :
    item? s k = none := by
  rw [item?]
  split
  next hall =>
    have hnone := answer_served h
    by_cases he : served s n = k
    · exact he ▸ hnone
    · have := hall _ (Nat.lt_of_le_of_ne hk he)
      simp [hnone] at this
  next => rfl

theorem le_length (h : served s n = n) : (n : ℕ∞) ≤ length s := by
  refine le_iInf fun k => ?_
  have hnone := k.2
  have hk : ¬ k.1 < n := fun hlt => by
    have hsome := isSome_of_served_eq h k.1 hlt
    simp [hnone] at hsome
  exact_mod_cast Nat.le_of_not_lt hk

theorem length_eq_served (h : served s n < n) : length s = served s n := by
  have hnone := answer_served h
  have hself : served s (served s n) = served s n := by
    have := served_of_le (s := s) (Nat.le_of_lt h)
    omega
  exact le_antisymm (iInf_le (fun k : {k : Nat // answer s k = none} => (k : ℕ∞)) ⟨_, hnone⟩)
    (le_length hself)

theorem served_eq_min (s : σ) (n : Nat) : (served s n : ℕ∞) = min (length s) n := by
  by_cases h : served s n = n
  · have hle := le_length h
    rw [h, min_eq_right hle]
  · have hlt : served s n < n := Nat.lt_of_le_of_ne (served_le s n) h
    have hle : (served s n : ℕ∞) ≤ n := by exact_mod_cast Nat.le_of_lt hlt
    rw [length_eq_served hlt, min_eq_left hle]

theorem asked_eq_min (s : σ) (n : Nat) : (asked s n : ℕ∞) = min (length s + 1) n := by
  by_cases h : served s n = n
  · have hle : (n : ℕ∞) ≤ length s + 1 := le_trans (le_length h) le_self_add
    rw [asked, h, min_eq_right hle, Nat.min_eq_right (by omega)]
  · have hlt : served s n < n := Nat.lt_of_le_of_ne (served_le s n) h
    have hle : (served s n + 1 : ℕ∞) ≤ n := by exact_mod_cast hlt
    rw [asked, length_eq_served hlt, min_eq_left hle, Nat.min_eq_left (by omega)]
    rfl

/-- What the source has noted when it has been asked that many times. -/
def noted (s : σ) (count : Nat) : List ε := (pulls count s).flatMap Prod.fst

theorem noted_succ (s : σ) (count : Nat) :
    noted s (count + 1) = noted s count ++ (pull (after count s)).notes := by
  simp [noted, pulls_succ]

theorem length_noted (h : ∀ u : σ, (pull u).notes.length = 1) (s : σ) (count : Nat) :
    (noted s count).length = count := by
  induction count with
  | zero => rfl
  | succ count ih => rw [noted_succ, List.length_append, ih, h]

theorem asked_eq_length_iff (s : σ) (n : Nat) :
    (asked s n : ℕ∞) = length s + 1 ↔ served s n < n := by
  by_cases h : served s n < n
  · have hasked : asked s n = served s n + 1 := by
      rw [asked]
      omega
    rw [length_eq_served h, hasked]
    exact iff_of_true rfl h
  · have hle := served_le s n
    have hself : served s n = n := by omega
    have hasked : asked s n = n := by
      rw [asked]
      omega
    refine iff_of_false (fun he => ?_) h
    have hlength := le_length hself
    rw [hasked] at he
    have hsucc : (n : ℕ∞) + 1 ≤ n := he ▸ add_le_add_left hlength 1
    have : n + 1 ≤ n := by exact_mod_cast hsucc
    omega

end Source

open Source in
/-- A replay as it is when the reader furthest ahead has asked `most` times. -/
structure Replay.Holds {σ ε α : Type} [Source σ ε α] (s : σ) (most : Nat) (r : Replay σ α) :
    Prop where
  source : r.source = if served s most = most then some (after most s) else none
  items : r.items.toList.map some = (List.range (served s most)).map (answer s)

namespace Replay

open Source

variable {σ ε α : Type} [Source σ ε α] {s : σ} {r : Replay σ α} {most calls : Nat}

theorem holds_ofSource (s : σ) : (ofSource s).Holds s 0 := ⟨rfl, rfl⟩

theorem Holds.size (h : r.Holds s most) : r.items.size = served s most := by
  simpa using congrArg List.length h.items

theorem Holds.getElem? (h : r.Holds s most) {k : Nat} (hk : k < served s most) :
    r.items[k]? = answer s k := by
  have hmap := congrArg (·[k]?) h.items
  simp only [List.getElem?_map, List.getElem?_range hk, Option.map_some, Array.getElem?_toList]
    at hmap
  cases hi : r.items[k]? with
  | none => simp [hi] at hmap
  | some a => simpa [hi] using hmap

theorem Holds.isExhausted_iff (h : r.Holds s most) : r.isExhausted ↔ served s most < most := by
  have hle := served_le s most
  rw [isExhausted, h.source]
  split
  · simp
    omega
  · simp
    omega

/-- Somebody who is behind is answered from the kept items. -/
theorem Holds.ask_kept (h : r.Holds s most) (hc : calls ≤ most)
    (hlt : served s calls < served s most) :
    r.ask (served s calls) = ⟨[], item? s calls, r⟩ ∧ calls < most := by
  have hmin := served_of_le (s := s) hc
  have hmost := served_le s most
  have hself : served s calls = calls := by omega
  have hsome := isSome_of_lt_served hlt
  have hitem := h.getElem? hlt
  rw [hself] at hsome hitem ⊢
  refine ⟨?_, by omega⟩
  obtain ⟨a, ha⟩ := Option.isSome_iff_exists.mp hsome
  rw [item?_eq, if_pos hself, ask, hitem, ha]

/-- Once the source has answered `none` it is not asked again. -/
theorem Holds.ask_exhausted (h : r.Holds s most) (hlt : served s most < most)
    (heq : served s calls = served s most) :
    r.ask (served s calls) = ⟨[], item? s calls, r⟩ := by
  have hle := served_le s calls
  have hnone : item? s calls = none := item?_eq_none_of_served_lt hlt (by omega)
  have hitems : r.items[served s calls]? = none := by
    rw [heq, ← h.size]
    exact Array.getElem?_eq_none (Nat.le_refl _)
  have hsource : r.source = none := by rw [h.source, if_neg (by omega)]
  rw [ask, hitems, hsource, hnone]

/-- The reader furthest ahead is answered by the source, which is let go at its `none`. -/
theorem Holds.ask_source (h : r.Holds s most) (hself : served s most = most) :
    let asked := r.ask (served s most)
    asked.item = item? s most ∧ asked.notes = (pull (after most s)).notes ∧
      asked.rest.Holds s (most + 1) := by
  have hitems : r.items[most]? = none := by
    have hsize := h.size
    exact Array.getElem?_eq_none (by omega)
  have hsource : r.source = some (after most s) := by rw [h.source, if_pos hself]
  have hkept := h.items
  rw [hself] at hkept ⊢
  intro asked
  cases ha : (pull (after most s)).item with
  | none =>
    have hanswer : answer s most = none := ha
    have hnext : served s (most + 1) = most := by
      rw [served, if_neg (by simp [hanswer]), hself]
    have hasked : asked = ⟨(pull (after most s)).notes, none, ⟨none, r.items⟩⟩ := by
      simp only [asked, ask, hitems, hsource, ha]
    rw [hasked, item?_eq, if_pos hself]
    refine ⟨hanswer.symm, rfl, ?_, ?_⟩
    · rw [hnext, if_neg (by omega)]
    · rw [hnext]
      exact hkept
  | some a =>
    have hanswer : answer s most = some a := ha
    have hnext : served s (most + 1) = most + 1 := by
      rw [served, if_pos ⟨hself, by simp [hanswer]⟩]
    have hasked : asked =
        ⟨(pull (after most s)).notes, some a,
          ⟨some (pull (after most s)).rest, r.items.push a⟩⟩ := by
      simp only [asked, ask, hitems, hsource, ha]
    rw [hasked, item?_eq, if_pos hself]
    refine ⟨hanswer.symm, rfl, ?_, ?_⟩
    · rw [hnext, if_pos rfl, after_succ]
    · rw [hnext, Array.toList_push, List.map_append, hkept, List.range_succ, List.map_append,
        List.map_singleton, List.map_singleton, hanswer]

/-- The answer to a reader that has asked `calls` times before, and what it does to the replay. -/
theorem Holds.ask (h : r.Holds s most) (hc : calls ≤ most) :
    let asked := r.ask (served s calls)
    asked.item = item? s calls ∧
      (if asked.item.isSome then served s calls + 1 else served s calls) = served s (calls + 1) ∧
      asked.rest.Holds s (max most (calls + 1)) ∧
      noted s (Source.asked s (max most (calls + 1))) =
        noted s (Source.asked s most) ++ asked.notes := by
  intro asked
  have hsucc := served_succ s calls
  have hle := served_le s most
  rcases Nat.lt_or_ge (served s calls) (served s most) with hlt | hge
  · obtain ⟨hasked, hc'⟩ := h.ask_kept hc hlt
    have hmax : max most (calls + 1) = most := by omega
    simp only [asked, hasked, hmax, List.append_nil, true_and, and_true]
    exact ⟨hsucc.symm, h⟩
  · have heq : served s calls = served s most := by
      have := served_of_le (s := s) hc
      omega
    rcases Nat.lt_or_eq_of_le hle with hlt | hself
    · have hasked := h.ask_exhausted hlt heq
      have hmax : served s (max most (calls + 1)) = served s most := by
        have hlast := served_of_le (s := s) (n := most) (m := max most (calls + 1)) (by omega)
        omega
      simp only [asked, hasked, Source.asked, hmax, List.append_nil, true_and]
      refine ⟨hsucc.symm, ⟨?_, by rw [hmax]; exact h.items⟩, ?_⟩
      · rw [h.source, hmax, if_neg (by omega), if_neg (by omega)]
      · rw [Nat.min_eq_left (by omega), Nat.min_eq_left (by omega)]
    · obtain rfl : calls = most := by
        have := served_le s calls
        omega
      obtain ⟨hitem, hnotes, hholds⟩ := h.ask_source hself
      have hmax : max calls (calls + 1) = calls + 1 := by omega
      have hnow : Source.asked s calls = calls := by rw [Source.asked, hself]; omega
      have hnext : Source.asked s (calls + 1) = calls + 1 := by
        rw [Source.asked, hsucc, hself]
        split <;> omega
      rw [hmax, hnow, hnext, noted_succ]
      refine ⟨hitem, ?_, hholds, congrArg _ hnotes.symm⟩
      rw [hsucc]
      simp only [asked, hitem]

end Replay

end TreeQuery
