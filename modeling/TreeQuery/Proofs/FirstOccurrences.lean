/-! Lists that agree once only first occurrences are kept. The relation is a congruence for all
that a search does to its results. -/

namespace TreeQuery

section

variable {α : Type} [BEq α]

def SameFirsts (l m : List α) : Prop := l.eraseDups = m.eraseDups

theorem SameFirsts.refl (l : List α) : SameFirsts l l := rfl

theorem SameFirsts.symm {l m : List α} (h : SameFirsts l m) : SameFirsts m l := Eq.symm h

theorem SameFirsts.trans {l m n : List α} (h : SameFirsts l m) (h' : SameFirsts m n) :
    SameFirsts l n := Eq.trans h h'

theorem SameFirsts.isEmpty_eq {l m : List α} (h : SameFirsts l m) : l.isEmpty = m.isEmpty := by
  have hempty : ∀ k : List α, k.isEmpty = k.eraseDups.isEmpty := by
    intro k
    cases k <;> simp [List.eraseDups_cons]
  rw [hempty l, hempty m, h]

theorem SameFirsts.take_one_eq {l m : List α} (h : SameFirsts l m) : l.take 1 = m.take 1 := by
  have hhead : ∀ k : List α, k.take 1 = k.eraseDups.take 1 := by
    intro k
    cases k <;> simp [List.eraseDups_cons]
  rw [hhead l, hhead m, h]

end

variable {α β : Type} [BEq α] [LawfulBEq α] [BEq β] [LawfulBEq β]

theorem eraseDups_filter (p : α → Bool) (l : List α) :
    (l.filter p).eraseDups = l.eraseDups.filter p := by
  induction l generalizing p with
  | nil => rfl
  | cons a l ih =>
    rw [List.eraseDups_cons, ih, List.filter_cons, List.filter_cons, List.filter_filter]
    by_cases hp : p a
    · rw [if_pos hp, if_pos hp, List.eraseDups_cons, List.filter_filter, ih]
      simp only [Bool.and_comm]
    · rw [if_neg hp, if_neg hp, ih]
      apply List.filter_congr
      intro b _
      by_cases hb : b = a
      · simp [hb, hp]
      · simp [hb]

theorem eraseDups_map {f : α → β} (hf : ∀ a b, f a = f b → a = b) (l : List α) :
    (l.map f).eraseDups = l.eraseDups.map f := by
  induction l with
  | nil => rfl
  | cons a l ih =>
    rw [List.map_cons, List.eraseDups_cons, List.eraseDups_cons, eraseDups_filter, eraseDups_filter,
      ih, List.map_cons, List.filter_map]
    congr 2
    apply List.filter_congr
    intro b _
    have heq : (f b == f a) = (b == a) := by
      rw [Bool.eq_iff_iff, beq_iff_eq, beq_iff_eq]
      exact ⟨hf b a, congrArg f⟩
    simp [heq]

theorem nodup_eraseDups (l : List α) : l.eraseDups.Nodup := by
  induction l with
  | nil => simp
  | cons a l ih =>
    rw [List.eraseDups_cons, eraseDups_filter, List.nodup_cons]
    exact ⟨by simp, ih.filter _⟩

theorem eraseDups_eq_self {l : List α} (h : l.Nodup) : l.eraseDups = l := by
  induction l with
  | nil => rfl
  | cons a l ih =>
    obtain ⟨ha, hl⟩ := List.nodup_cons.mp h
    rw [List.eraseDups_cons, eraseDups_filter, ih hl, List.filter_eq_self.mpr]
    intro b hb
    have : b ≠ a := fun he => ha (he ▸ hb)
    simp [this]

theorem eraseDups_of_forall_eq {l : List α} {b : α} (h : ∀ a ∈ l, a = b) :
    l.eraseDups = if l.isEmpty then [] else [b] := by
  cases l with
  | nil => rfl
  | cons a l =>
    obtain ⟨rfl, hl⟩ := List.forall_mem_cons.mp h
    have hnone : l.filter (fun b => !b == a) = [] :=
      List.filter_eq_nil_iff.mpr fun b hb => by simp [hl b hb]
    simp [List.eraseDups_cons, hnone]

theorem take_one_eq_eraseDups {l : List α} {b : α} (h : ∀ a ∈ l, a = b) :
    l.take 1 = l.eraseDups := by
  rw [eraseDups_of_forall_eq h]
  cases l with
  | nil => rfl
  | cons a l => simp [h a]

namespace SameFirsts

theorem eraseDups (l : List α) : SameFirsts l.eraseDups l := eraseDups_eq_self (nodup_eraseDups l)

theorem mem_iff {l m : List α} (h : SameFirsts l m) (a : α) : a ∈ l ↔ a ∈ m := by
  rw [← List.mem_eraseDups, h, List.mem_eraseDups]

theorem filter {l m : List α} (h : SameFirsts l m) (p : α → Bool) :
    SameFirsts (l.filter p) (m.filter p) := by
  rw [SameFirsts, eraseDups_filter, eraseDups_filter, h]

/-- After `l`, only what is not in `l` matters. -/
theorem append_of_removeAll {l m n : List α} (h : SameFirsts (m.removeAll l) (n.removeAll l)) :
    SameFirsts (l ++ m) (l ++ n) := by
  rw [SameFirsts, List.eraseDups_append, List.eraseDups_append, h]

theorem append {l l' m m' : List α} (h : SameFirsts l l') (h' : SameFirsts m m') :
    SameFirsts (l ++ m) (l' ++ m') := by
  have hleft : m'.removeAll l = m'.removeAll l' := by
    apply List.filter_congr
    intro a _
    simp [h.mem_iff a]
  calc (l ++ m).eraseDups
      = (l ++ m').eraseDups := append_of_removeAll (h'.filter _)
    _ = (l' ++ m').eraseDups := by rw [List.eraseDups_append, List.eraseDups_append, h, hleft]

theorem flatMap_of_mem {ι : Type} {l : List ι} {f g : ι → List β}
    (h : ∀ i ∈ l, SameFirsts (f i) (g i)) : SameFirsts (l.flatMap f) (l.flatMap g) := by
  induction l with
  | nil => exact refl _
  | cons i l ih =>
    obtain ⟨hi, hl⟩ := List.forall_mem_cons.mp h
    rw [List.flatMap_cons, List.flatMap_cons]
    exact hi.append (ih hl)

theorem flatMap_right {ι : Type} (l : List ι) {f g : ι → List β}
    (h : ∀ i, SameFirsts (f i) (g i)) : SameFirsts (l.flatMap f) (l.flatMap g) :=
  flatMap_of_mem fun i _ => h i

/-- Once `f a` has come, a further `a` adds nothing. -/
theorem append_flatMap_filter (f : α → List β) (a : α) (l : List α) :
    SameFirsts (f a ++ (l.filter fun b => !b == a).flatMap f) (f a ++ l.flatMap f) := by
  apply append_of_removeAll
  induction l with
  | nil => exact refl _
  | cons b l ih =>
    by_cases hb : b = a
    · subst hb
      have hnone : (f b).filter (fun c => !decide (c ∈ f b)) = [] := by simp
      simpa [List.removeAll, List.filter_append, hnone] using ih
    · simpa [List.removeAll, List.filter_append, hb] using (refl _).append ih

theorem flatMap_eraseDups (l : List α) (f : α → List β) :
    SameFirsts (l.eraseDups.flatMap f) (l.flatMap f) := by
  induction l with
  | nil => exact refl _
  | cons a l ih =>
    rw [List.eraseDups_cons, eraseDups_filter, List.flatMap_cons, List.flatMap_cons]
    exact (append_flatMap_filter f a l.eraseDups).trans ((refl _).append ih)

theorem flatMap {l m : List α} (h : SameFirsts l m) {f g : α → List β}
    (hf : ∀ a, SameFirsts (f a) (g a)) : SameFirsts (l.flatMap f) (m.flatMap g) := by
  have hm := flatMap_eraseDups m f
  rw [← h] at hm
  exact ((flatMap_eraseDups l f).symm.trans hm).trans (flatMap_right m hf)

theorem map {l m : List α} (h : SameFirsts l m) (f : α → β) :
    SameFirsts (l.map f) (m.map f) := by
  rw [List.map_eq_flatMap, List.map_eq_flatMap]
  exact h.flatMap fun a => refl [f a]

end SameFirsts

end TreeQuery
