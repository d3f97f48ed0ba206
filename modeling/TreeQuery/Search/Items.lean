import TreeQuery.Search.Memo

/-! What the operations on searches find, as operations on the lists of what their parts find. -/

namespace TreeQuery

namespace Search

variable {ε α β γ : Type}

@[simp] theorem items_noteIf (wanted : Bool) (event : ε) (rest : Unit → Search ε α) :
    (noteIf wanted event rest).items = (rest ()).items := by
  cases wanted <;> rfl

@[simp] theorem notes_noteIf (wanted : Bool) (event : ε) (rest : Unit → Search ε α) :
    (noteIf wanted event rest).notes =
      if wanted then event :: (rest ()).notes else (rest ()).notes := by
  cases wanted <;> rfl

@[simp] theorem items_ofList (as : List α) : (ofList as : Search ε α).items = as := by
  induction as with
  | nil => rfl
  | cons a as ih => simp [ofList, items, ih]

@[simp] theorem notes_ofList (as : List α) : (ofList as : Search ε α).notes = [] := by
  induction as with
  | nil => rfl
  | cons a as ih => simp [ofList, notes, ih]

@[simp] theorem items_append (s : Search ε α) (after : Unit → Search ε α) :
    (s.append after).items = s.items ++ (after ()).items := by
  induction s with
  | stop => rfl
  | note e rest ih => simp [append, items, ih]
  | yield a rest ih => simp [append, items, ih]

@[simp] theorem notes_append (s : Search ε α) (after : Unit → Search ε α) :
    (s.append after).notes = s.notes ++ (after ()).notes := by
  induction s with
  | stop => rfl
  | note e rest ih => simp [append, notes, ih]
  | yield a rest ih => simp [append, notes, ih]

@[simp] theorem items_filterMap (f : α → Option β) (s : Search ε α) :
    (s.filterMap f).items = s.items.filterMap f := by
  induction s with
  | stop => rfl
  | note e rest ih => simp [filterMap, items, ih]
  | yield a rest ih => cases h : f a <;> simp [filterMap, items, h, ih]

@[simp] theorem notes_filterMap (f : α → Option β) (s : Search ε α) :
    (s.filterMap f).notes = s.notes := by
  induction s with
  | stop => rfl
  | note e rest ih => simp [filterMap, notes, ih]
  | yield a rest ih => cases h : f a <;> simp [filterMap, notes, h, ih]

@[simp] theorem items_map (f : α → β) (s : Search ε α) : (s.map f).items = s.items.map f := by
  induction s with
  | stop => rfl
  | note e rest ih => simp [map, items, ih]
  | yield a rest ih => simp [map, items, ih]

@[simp] theorem notes_map (f : α → β) (s : Search ε α) : (s.map f).notes = s.notes := by
  induction s with
  | stop => rfl
  | note e rest ih => simp [map, notes, ih]
  | yield a rest ih => simp [map, notes, ih]

theorem flatMap_yield (f : α → Search ε β) (a : α) (rest : Unit → Search ε α) :
    (yield a rest).flatMap f = (f a).append fun _ => (rest ()).flatMap f := by
  cases h : f a <;> simp [flatMap, h, append]

@[simp] theorem items_flatMap (f : α → Search ε β) (s : Search ε α) :
    (s.flatMap f).items = s.items.flatMap fun a => (f a).items := by
  induction s with
  | stop => rfl
  | note e rest ih => simp [flatMap, items, ih]
  | yield a rest ih => simp [flatMap_yield, items, ih]

@[simp] theorem items_first (s : Search ε α) : s.first.items = s.items.take 1 := by
  induction s with
  | stop => rfl
  | note e rest ih => simp [first, items, ih]
  | yield a rest => simp [first, items]

@[simp] theorem items_orElse (fallback : Option α) (s : Search ε α) :
    (s.orElse fallback).items = if s.items.isEmpty then fallback.toList else s.items := by
  induction s with
  | stop => cases fallback <;> simp [orElse, items]
  | note e rest ih => simp [orElse, items, ih]
  | yield a rest => simp [orElse, items]

@[simp] theorem items_announce (wanted : Bool) (event : α → ε) (s : Search ε α) :
    (s.announce wanted event).items = s.items := by
  induction s with
  | stop => rfl
  | note e rest ih => simp [announce, items, ih]
  | yield a rest ih => simp [announce, items, ih]

section Distinct

variable [BEq α] [LawfulBEq α] [Hashable α]

theorem eraseDups_filter_cons {seen : Std.HashSet α} {a : α} (h : seen.contains a = false)
    (as : List α) :
    ((a :: as).filter fun b => !seen.contains b).eraseDups =
      a :: (as.filter fun b => !(seen.insert a).contains b).eraseDups := by
  rw [List.filter_cons_of_pos (by simp [h]), List.eraseDups_cons, List.filter_filter]
  congr 2
  apply List.filter_congr
  intro b _
  rw [Std.HashSet.contains_insert, Bool.not_or, Bool.beq_comm]

theorem items_distinctFrom (seen : Std.HashSet α) (s : Search ε α) :
    (s.distinctFrom seen).items = (s.items.filter fun a => !seen.contains a).eraseDups := by
  induction s generalizing seen with
  | stop => rfl
  | note e rest ih => exact ih () seen
  | yield a rest ih =>
    by_cases h : seen.contains a
    · rw [distinctFrom, if_pos h, ih, items, List.filter_cons_of_neg (by simp [h])]
    · rw [distinctFrom, if_neg h, items, ih, items, eraseDups_filter_cons (by simpa using h)]

@[simp] theorem items_distinct (s : Search ε α) : s.distinct.items = s.items.eraseDups := by
  rw [distinct, items_distinctFrom]
  congr 1
  exact List.filter_eq_self.mpr fun a _ => by simp

end Distinct

end Search

end TreeQuery
