import Mathlib.Data.List.Basic
import TreeQuery.Proofs.SearchLaws

/-! What a search notes, less what its items are. A search below the items of another one notes what
that one notes and what the searches below note, in between: among the notes of one kind the order
can be told if they come from the one or from the others only. -/

namespace TreeQuery

/-- Each item with those before it. -/
def withEarlier {α : Type} (earlier : List α) : List α → List (List α × α)
  | [] => []
  | a :: as => (earlier, a) :: withEarlier (earlier ++ [a]) as

section WithEarlier

variable {α : Type} {earlier l : List α}

theorem map_snd_withEarlier (earlier l : List α) : (withEarlier earlier l).map Prod.snd = l := by
  induction l generalizing earlier with
  | nil => rfl
  | cons a l ih => rw [withEarlier, List.map_cons, ih]

theorem mem_of_mem_withEarlier {x : List α × α} (h : x ∈ withEarlier earlier l) : x.2 ∈ l := by
  rw [← map_snd_withEarlier earlier l]
  exact List.mem_map_of_mem h

theorem withEarlier_split {front back : List (List α × α)} {x : List α × α}
    (h : withEarlier earlier l = front ++ x :: back) : x.1 = earlier ++ front.map Prod.snd := by
  induction front generalizing earlier l with
  | nil =>
    cases l with
    | nil => simp [withEarlier] at h
    | cons a l =>
      obtain ⟨rfl, -⟩ := List.cons.inj h
      simp
  | cons y front ih =>
    cases l with
    | nil => simp [withEarlier] at h
    | cons a l =>
      obtain ⟨rfl, hrest⟩ := List.cons.inj h
      rw [ih hrest, List.map_cons, List.append_assoc, List.singleton_append]

theorem subset_of_mem_withEarlier {x : List α × α} (h : x ∈ withEarlier earlier l) :
    earlier ⊆ x.1 := by
  obtain ⟨front, back, hsplit⟩ := List.append_of_mem h
  rw [withEarlier_split hsplit]
  exact List.subset_append_left _ _

theorem pairwise_withEarlier (earlier l : List α) :
    (withEarlier earlier l).Pairwise fun x y => x.2 ∈ y.1 := by
  induction l generalizing earlier with
  | nil => exact .nil
  | cons a l ih =>
    refine .cons (fun y hy => ?_) (ih _)
    exact subset_of_mem_withEarlier hy (List.mem_append_right _ List.mem_cons_self)

end WithEarlier

namespace Search

variable {ε δ α β : Type}

theorem mem_notes_flatMapAfter {f : List α → α → Search ε β} {earlier : List α} {s : Search ε α}
    {e : ε} :
    e ∈ (s.flatMapAfter f earlier).notes ↔
      e ∈ s.notes ∨ ∃ x ∈ withEarlier earlier s.items, e ∈ (f x.1 x.2).notes := by
  induction s generalizing earlier with
  | stop => simp [flatMapAfter, notes, items, withEarlier]
  | note e' rest ih => simp only [flatMapAfter, notes, items, List.mem_cons, ih, or_assoc]
  | yield a rest ih =>
    simp only [flatMapAfter, notes_append, List.mem_append, ih, notes, items, withEarlier,
      List.exists_mem_cons_iff]
    exact or_left_comm

/-- The notes of one kind are those of the source if nothing below its items notes that kind. -/
theorem filterMap_notes_flatMapAfter_of_source {f : List α → α → Search ε β} {p : ε → Option δ}
    {earlier : List α} {s : Search ε α}
    (h : ∀ x ∈ withEarlier earlier s.items, (f x.1 x.2).notes.filterMap p = []) :
    (s.flatMapAfter f earlier).notes.filterMap p = s.notes.filterMap p := by
  induction s generalizing earlier with
  | stop => rfl
  | note e rest ih =>
    simp only [flatMapAfter, notes, List.filterMap_cons, ih () h]
  | yield a rest ih =>
    obtain ⟨ha, hrest⟩ := List.forall_mem_cons.mp h
    rw [flatMapAfter, notes_append, List.filterMap_append, ha, List.nil_append, ih () hrest, notes]

theorem filterMap_notes_flatMapAfter_of_parts {f : List α → α → Search ε β} {p : ε → Option δ}
    (earlier : List α) {s : Search ε α} (h : s.notes.filterMap p = []) :
    (s.flatMapAfter f earlier).notes.filterMap p =
      (withEarlier earlier s.items).flatMap fun x => (f x.1 x.2).notes.filterMap p := by
  induction s generalizing earlier with
  | stop => rfl
  | note e rest ih =>
    rw [notes, List.filterMap_cons] at h
    cases he : p e with
    | none =>
      rw [flatMapAfter, notes, List.filterMap_cons_none he, items]
      exact ih () earlier (by simpa only [he] using h)
    | some d => simp [he] at h
  | yield a rest ih =>
    rw [flatMapAfter, notes_append, List.filterMap_append, ih () _ h, items, withEarlier,
      List.flatMap_cons]

@[simp] theorem notes_distinct [BEq α] [Hashable α] (s : Search ε α) :
    s.distinct.notes = s.notes := by
  have hseen (seen : Std.HashSet α) : (s.distinctFrom seen).notes = s.notes := by
    induction s generalizing seen with
    | stop => rfl
    | note e rest ih => exact congrArg (e :: ·) (ih () seen)
    | yield a rest ih =>
      rw [distinctFrom, notes]
      split
      · exact ih () seen
      · exact ih () _
  exact hseen ∅

@[simp] theorem notes_orElse (fallback : Option α) (s : Search ε α) :
    (s.orElse fallback).notes = s.notes := by
  induction s with
  | stop => cases fallback <;> rfl
  | note e rest ih => exact congrArg (e :: ·) (ih ())
  | yield a rest => rfl

theorem notes_first_isPrefix (s : Search ε α) : s.first.notes <+: s.notes := by
  induction s with
  | stop => exact List.prefix_refl _
  | note e rest ih => exact List.prefix_cons_inj e |>.mpr (ih ())
  | yield a rest => exact List.nil_prefix

end Search

end TreeQuery
