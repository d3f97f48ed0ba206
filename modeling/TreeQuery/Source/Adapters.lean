import TreeQuery.Source

/-! Adapters around a source. Both keep asking it after it has answered `none`. -/

namespace TreeQuery

/-- Drops items that have already been handed over. -/
structure Distinct (σ α : Type) [BEq α] [Hashable α] where
  source : σ
  seen : Std.HashSet α

namespace Distinct

variable {σ ε α : Type} [BEq α] [Hashable α] [FiniteSource σ ε α]

def ofSource (s : σ) : Distinct σ α := ⟨s, ∅⟩

/-- Asks until a new item or `none` comes. -/
def pull (d : Distinct σ α) : Pull (Distinct σ α) ε α :=
  let asked := Source.pull d.source
  match _h : asked.item with
  | none => ⟨asked.notes, none, ⟨asked.rest, d.seen⟩⟩
  | some a =>
    if d.seen.contains a then
      let later := pull ⟨asked.rest, d.seen⟩
      { later with notes := asked.notes ++ later.notes }
    else ⟨asked.notes, some a, ⟨asked.rest, d.seen.insert a⟩⟩
termination_by FiniteSource.remaining d.source
decreasing_by exact FiniteSource.remaining_lt _ (by simp [asked, _h])

theorem remaining_pull_le (d : Distinct σ α) :
    FiniteSource.remaining d.pull.rest.source ≤ FiniteSource.remaining d.source := by
  fun_induction pull d with
  | case1 d asked h => exact FiniteSource.remaining_le d.source
  | case2 d asked a h _ later ih => exact Nat.le_trans ih (FiniteSource.remaining_le d.source)
  | case3 d asked a h => exact FiniteSource.remaining_le d.source

theorem remaining_pull_lt (d : Distinct σ α) (found : d.pull.item.isSome) :
    FiniteSource.remaining d.pull.rest.source < FiniteSource.remaining d.source := by
  fun_induction pull d with
  | case1 => simp at found
  | case2 d asked a h _ later ih =>
    exact Nat.lt_trans (ih found) (FiniteSource.remaining_lt d.source (by rw [h]; rfl))
  | case3 d asked a h => exact FiniteSource.remaining_lt d.source (by rw [h]; rfl)

instance : FiniteSource (Distinct σ α) ε α where
  pull := pull
  remaining d := FiniteSource.remaining d.source
  remaining_le := remaining_pull_le
  remaining_lt := remaining_pull_lt

end Distinct

/-- Hands over `fallback` once if the source answers `none` before it has given an item. -/
structure WithFallback (σ α : Type) where
  source : σ
  fallback : Option α
  produced : Bool := false

namespace WithFallback

variable {σ ε α : Type}

section Pull

variable [Source σ ε α]

def pull (o : WithFallback σ α) : Pull (WithFallback σ α) ε α :=
  let asked := Source.pull o.source
  match asked.item with
  | some a => ⟨asked.notes, some a, ⟨asked.rest, o.fallback, true⟩⟩
  | none =>
    if o.produced then ⟨asked.notes, none, ⟨asked.rest, o.fallback, true⟩⟩
    else ⟨asked.notes, o.fallback, ⟨asked.rest, none, false⟩⟩

instance : Source (WithFallback σ α) ε α where
  pull := pull

end Pull

variable [FiniteSource σ ε α]

/-- The items of the source, and the fallback while it may still be used. -/
def remaining (o : WithFallback σ α) : Nat :=
  FiniteSource.remaining o.source + if o.produced then 0 else o.fallback.toList.length

theorem remaining_pull_le (o : WithFallback σ α) : o.pull.rest.remaining ≤ o.remaining := by
  obtain ⟨source, fallback, produced⟩ := o
  have := FiniteSource.remaining_le source
  cases h : (Source.pull source).item with
  | some a => simp only [pull, remaining, h, if_true]; omega
  | none =>
    cases produced with
    | true => simp only [pull, remaining, h, if_true]; omega
    | false =>
      simp only [pull, remaining, h, Bool.false_eq_true, if_false, Option.toList_none,
        List.length_nil]
      omega

theorem remaining_pull_lt (o : WithFallback σ α) (found : o.pull.item.isSome) :
    o.pull.rest.remaining < o.remaining := by
  obtain ⟨source, fallback, produced⟩ := o
  have := FiniteSource.remaining_le source
  cases h : (Source.pull source).item with
  | some a =>
    have := FiniteSource.remaining_lt source (by rw [h]; rfl)
    simp only [pull, remaining, h, if_true]
    omega
  | none =>
    cases produced with
    | true => simp only [pull, h, if_true, Option.isSome_none, Bool.false_eq_true] at found
    | false =>
      simp only [pull, h, Bool.false_eq_true, if_false] at found
      obtain ⟨a, rfl⟩ := Option.isSome_iff_exists.mp found
      simp only [pull, remaining, h, Bool.false_eq_true, if_false, Option.toList_none,
        List.length_nil, Option.toList_some, List.length_cons]
      omega

instance : FiniteSource (WithFallback σ α) ε α where
  remaining := remaining
  remaining_le := remaining_pull_le
  remaining_lt := remaining_pull_lt

end WithFallback

end TreeQuery
