import TreeQuery.Proofs.SearchFronts
import TreeQuery.Source.Adapters

/-! What adapters hand over, around any source, which may go on after a gap; and around a search,
pull by pull the same as the operation on searches of that name. -/

namespace TreeQuery

namespace Source

variable {σ τ ε α : Type} [Source σ ε α] [Source τ ε α]

/-- Sources that give the same and go on from there in the same way. -/
theorem pulls_eq_of_step {R : σ → τ → Prop}
    (hstep : ∀ s t, R s t → (pull s).notes = (pull t).notes ∧ (pull s).item = (pull t).item ∧
      R (pull s).rest (pull t).rest) {s : σ} {t : τ} (h : R s t) (count : Nat) :
    pulls count s = pulls count t := by
  induction count generalizing s t with
  | zero => rfl
  | succ count ih =>
    obtain ⟨hnotes, hitem, hrest⟩ := hstep s t h
    rw [pulls, pulls, hnotes, hitem, ih hrest]

theorem pulls_add (count more : Nat) (s : σ) :
    pulls (count + more) s = pulls count s ++ pulls more (after count s) := by
  induction count generalizing s with
  | zero => rw [Nat.zero_add, pulls, after, List.nil_append]
  | succ count ih => rw [Nat.succ_add, pulls, pulls, after, ih, List.cons_append]

end Source

namespace Distinct

open Source (pulls after)

variable {σ ε α : Type} [BEq α] [Hashable α]

/-- The answers without the items that have been seen before. Gaps stay. -/
def fresh (seen : Std.HashSet α) : List (Option α) → List (Option α)
  | [] => []
  | none :: answers => none :: fresh seen answers
  | some a :: answers =>
    if seen.contains a then fresh seen answers else some a :: fresh (seen.insert a) answers

section Sources

variable [FiniteSource σ ε α] {d : Distinct σ α}

/-- A pull asks the source as often as it takes, and notes all that is noted on the way. -/
theorem exists_pull_eq (d : Distinct σ α) : ∃ asked,
    d.pull.notes = (pulls asked d.source).flatMap Prod.fst ∧
      d.pull.rest.source = after asked d.source ∧
      ∀ answers, fresh d.seen ((pulls asked d.source).map Prod.snd ++ answers) =
        d.pull.item :: fresh d.pull.rest.seen answers := by
  fun_induction pull d with
  | case1 d asked h =>
    refine ⟨1, by simp [pulls, asked], rfl, fun answers => ?_⟩
    have hnone : (Source.pull d.source).item = none := h
    simp [pulls, hnone, fresh]
  | case2 d asked a h hseen later ih =>
    obtain ⟨more, hnotes, hsource, hanswers⟩ := ih
    refine ⟨more + 1, ?_, hsource, fun answers => ?_⟩
    · rw [pulls, List.flatMap_cons, ← hnotes]
    · have hitem : (Source.pull d.source).item = some a := h
      rw [pulls, List.map_cons, List.cons_append, hitem, fresh, if_pos hseen]
      exact hanswers answers
  | case3 d asked a h hseen =>
    refine ⟨1, by simp [pulls, asked], rfl, fun answers => ?_⟩
    have hitem : (Source.pull d.source).item = some a := h
    simp only [pulls, hitem, List.map_cons, List.map_nil, List.cons_append, List.nil_append, fresh]
    rw [if_neg hseen]

/-- Pulled any number of times, it has handed over the answers that its source has given by then,
each item once. -/
theorem exists_pulls_eq (d : Distinct σ α) (count : Nat) : ∃ asked,
    (pulls count d).map Prod.snd = fresh d.seen ((pulls asked d.source).map Prod.snd) ∧
      (pulls count d).flatMap Prod.fst = (pulls asked d.source).flatMap Prod.fst := by
  induction count generalizing d with
  | zero => exact ⟨0, rfl, rfl⟩
  | succ count ih =>
    obtain ⟨asked, hnotes, hsource, hanswers⟩ := d.exists_pull_eq
    obtain ⟨more, hitems, hmore⟩ := ih d.pull.rest
    rw [hsource] at hitems hmore
    refine ⟨asked + more, ?_, ?_⟩
    · rw [Source.pulls_add asked more, List.map_append, hanswers, ← hitems]
      rfl
    · rw [Source.pulls_add asked more, List.flatMap_append, ← hmore, ← hnotes]
      rfl

end Sources

/-- Asked once, the adapter of a search gives the next new item, and what it is afterwards goes with
what the search without repetitions is afterwards. -/
theorem pull_eq (d : Distinct (Search ε α) α) :
    d.pull.notes = (d.source.distinctFrom d.seen).pull.notes ∧
      d.pull.item = (d.source.distinctFrom d.seen).pull.item ∧
      (d.source.distinctFrom d.seen).pull.rest =
        d.pull.rest.source.distinctFrom d.pull.rest.seen := by
  fun_induction pull d with
  | case1 d asked h =>
    obtain ⟨hfront, hrest⟩ : d.source = .after asked.notes .stop ∧ asked.rest = .stop :=
      Search.eq_after_stop h
    rw [hfront, Search.after_distinctFrom, hrest, Search.distinctFrom, Search.pull_after_stop]
    exact ⟨rfl, rfl, rfl⟩
  | case2 d asked a h hseen later ih =>
    have hfront : d.source = .after asked.notes (.cons a asked.rest) := Search.eq_after_cons h
    obtain ⟨hnotes, hitem, hrest⟩ := ih
    rw [hfront, Search.after_distinctFrom, Search.cons_distinctFrom, if_pos hseen,
      Search.pull_after]
    exact ⟨congrArg (asked.notes ++ ·) hnotes, hitem, hrest⟩
  | case3 d asked a h hseen =>
    have hfront : d.source = .after asked.notes (.cons a asked.rest) := Search.eq_after_cons h
    rw [hfront, Search.after_distinctFrom, Search.cons_distinctFrom, if_neg hseen,
      Search.pull_after_cons]
    exact ⟨rfl, rfl, rfl⟩

/-- Around a search it gives what the search without repetitions gives. -/
theorem pulls_eq_distinct (s : Search ε α) (count : Nat) :
    pulls count (ofSource s : Distinct (Search ε α) α) = pulls count s.distinct := by
  refine Source.pulls_eq_of_step (R := fun (d : Distinct (Search ε α) α) t =>
    t = d.source.distinctFrom d.seen) ?_ rfl count
  rintro d _ rfl
  exact d.pull_eq

end Distinct

namespace WithFallback

open Source (pulls)

variable {σ ε α : Type}

section Sources

variable [Source σ ε α]

theorem pull_of_some {o : WithFallback σ α} {a : α} (h : (Source.pull o.source).item = some a) :
    o.pull = ⟨(Source.pull o.source).notes, some a,
      ⟨(Source.pull o.source).rest, o.fallback, true⟩⟩ := by
  simp only [pull, h]

theorem pull_of_none {o : WithFallback σ α} (h : (Source.pull o.source).item = none) :
    o.pull = ⟨(Source.pull o.source).notes, if o.produced then none else o.fallback,
      ⟨(Source.pull o.source).rest, if o.produced then o.fallback else none, o.produced⟩⟩ := by
  obtain ⟨source, fallback, produced⟩ := o
  cases produced <;> simp only [pull, h] <;> rfl

/-- Once an item has come, or the fallback has taken its place, the source is all there is. -/
theorem pulls_eq_source {o : WithFallback σ α} (h : o.produced ∨ o.fallback = none) (count : Nat) :
    pulls count o = pulls count o.source := by
  refine Source.pulls_eq_of_step (R := fun (o : WithFallback σ α) s =>
    s = o.source ∧ (o.produced ∨ o.fallback = none)) ?_ ⟨rfl, h⟩ count
  rintro o _ ⟨rfl, h⟩
  change o.pull.notes = _ ∧ o.pull.item = _ ∧ _ = o.pull.rest.source ∧
    (o.pull.rest.produced = true ∨ o.pull.rest.fallback = none)
  cases hitem : (Source.pull o.source).item with
  | some a =>
    rw [pull_of_some hitem]
    exact ⟨rfl, rfl, rfl, .inl rfl⟩
  | none =>
    rw [pull_of_none hitem]
    cases hproduced : o.produced with
    | true => exact ⟨rfl, rfl, rfl, .inl rfl⟩
    | false =>
      rw [hproduced] at h
      have hfallback : o.fallback = none := h.resolve_left Bool.false_ne_true
      exact ⟨rfl, hfallback, rfl, .inr rfl⟩

/-- The first answer is the fallback if the source has none, and all the others are the source's. -/
theorem pulls_succ (s : σ) (fallback : Option α) (count : Nat) :
    pulls (count + 1) (⟨s, fallback, false⟩ : WithFallback σ α) =
      ((Source.pull s).notes, (Source.pull s).item.or fallback) ::
        pulls count (Source.pull s).rest := by
  change ((pull ⟨s, fallback, false⟩).notes, (pull ⟨s, fallback, false⟩).item) ::
    pulls count (pull ⟨s, fallback, false⟩).rest = _
  cases hitem : (Source.pull s).item with
  | some a =>
    rw [pull_of_some hitem, pulls_eq_source (.inl rfl)]
    rfl
  | none =>
    rw [pull_of_none hitem, pulls_eq_source (.inr rfl)]
    rfl

end Sources

/-- Around a search it gives what the search or else the fallback gives. -/
theorem pulls_eq_orElse (s : Search ε α) (fallback : Option α) (count : Nat) :
    pulls count (⟨s, fallback, false⟩ : WithFallback (Search ε α) α) =
      pulls count (s.orElse fallback) := by
  cases count with
  | zero => rfl
  | succ count =>
    have hpull : (s.orElse fallback).pull =
        ⟨s.pull.notes, s.pull.item.or fallback, s.pull.rest⟩ := by
      cases hitem : s.pull.item with
      | some a =>
        rw [Search.eq_after_cons hitem, Search.after_orElse]
        simp only [Search.pull_after_cons]
        exact Search.pull_after_cons _ _ _
      | none =>
        obtain ⟨hfront, hrest⟩ := Search.eq_after_stop hitem
        rw [hrest, hfront, Search.after_orElse, Search.pull_after_stop]
        cases fallback with
        | some a => exact Search.pull_after_cons _ _ _
        | none => exact Search.pull_after_stop _
    rw [pulls_succ, pulls]
    change _ = ((s.orElse fallback).pull.notes, (s.orElse fallback).pull.item) ::
      pulls count (s.orElse fallback).pull.rest
    rw [hpull]
    rfl

end WithFallback

end TreeQuery
