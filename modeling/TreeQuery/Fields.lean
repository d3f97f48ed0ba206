/-! Named entries in the order of their names, each name once. -/

namespace TreeQuery

variable {α : Type}

theorem lookup_cons_eq_ite (name : String) (e : String × α) (entries : List (String × α)) :
    (e :: entries).lookup name = if name = e.1 then some e.2 else entries.lookup name := by
  by_cases h : name = e.1
  · rw [List.lookup_cons, beq_iff_eq.mpr h, if_pos h]
  · rw [List.lookup_cons, beq_eq_false_iff_ne.mpr h, if_neg h]

/-- Entries whose names strictly increase. -/
def Sorted (fields : List (String × α)) : Prop := fields.Pairwise fun e f => e.1 < f.1

instance (fields : List (String × α)) : Decidable (Sorted fields) := by
  unfold Sorted; infer_instance

/-- Puts an entry at the place of its name; one of that name is replaced. -/
def insertField (name : String) (a : α) : List (String × α) → List (String × α)
  | [] => [(name, a)]
  | (other, b) :: fields =>
    if name < other then (name, a) :: (other, b) :: fields
    else if other < name then (other, b) :: insertField name a fields
    else (name, a) :: fields

theorem names_insertField {name other : String} {a : α} {fields : List (String × α)}
    (h : other ∈ (insertField name a fields).map Prod.fst) :
    other = name ∨ other ∈ fields.map Prod.fst := by
  induction fields with
  | nil => simpa [insertField] using h
  | cons f fs ih =>
    simp only [insertField] at h
    split at h
    · simpa using h
    · split at h
      · simp only [List.map_cons, List.mem_cons] at h ⊢
        rcases h with h | h
        · exact .inr (.inl h)
        · exact (ih h).imp_right .inr
      · simp only [List.map_cons, List.mem_cons] at h ⊢
        exact h.imp_right .inr

theorem sorted_insertField {name : String} {a : α} {fields : List (String × α)}
    (h : Sorted fields) : Sorted (insertField name a fields) := by
  induction fields with
  | nil => simp [insertField, Sorted]
  | cons f fs ih =>
    have hs := List.pairwise_cons.mp h
    simp only [insertField]
    split
    next hlt =>
      refine List.pairwise_cons.mpr ⟨fun e he => ?_, h⟩
      rcases List.mem_cons.mp he with rfl | he
      · exact hlt
      · exact String.lt_trans hlt (hs.1 e he)
    next hge =>
      split
      next hlt =>
        refine List.pairwise_cons.mpr ⟨fun e he => ?_, ih hs.2⟩
        rcases names_insertField (List.mem_map_of_mem he) with hn | hn
        · exact hn ▸ hlt
        · obtain ⟨g, hg, hn⟩ := List.mem_map.mp hn
          exact hn ▸ hs.1 g hg
      next hle =>
        have hn : f.1 = name := String.le_antisymm hge hle
        exact List.pairwise_cons.mpr ⟨fun e he => hn ▸ hs.1 e he, hs.2⟩

theorem lookup_insertField (name other : String) (a : α) (fields : List (String × α)) :
    (insertField name a fields).lookup other =
      if other = name then some a else fields.lookup other := by
  induction fields with
  | nil => simp [insertField, lookup_cons_eq_ite]
  | cons f fs ih =>
    simp only [insertField]
    split
    · simp [lookup_cons_eq_ite]
    next hge =>
      split
      next hlt =>
        have hn : f.1 ≠ name := fun h => String.lt_irrefl _ (h ▸ hlt)
        rw [lookup_cons_eq_ite, ih, lookup_cons_eq_ite]
        by_cases h : other = name
        · simp [h, Ne.symm hn]
        · simp [h]
      next hle =>
        have hn : f.1 = name := String.le_antisymm hge hle
        subst hn
        simp only [lookup_cons_eq_ite]
        split <;> rfl

theorem insertField_append {name : String} {before : List (String × α)}
    (h : ∀ e ∈ before, e.1 < name) (a : α) (after : List (String × α)) :
    insertField name a (before ++ after) = before ++ insertField name a after := by
  induction before with
  | nil => rfl
  | cons e before ih =>
    obtain ⟨he, hbefore⟩ := List.forall_mem_cons.mp h
    rw [List.cons_append, insertField, if_neg (String.lt_asymm he), if_pos he, ih hbefore,
      List.cons_append]

theorem insertField_of_forall_lt {name : String} {after : List (String × α)}
    (h : ∀ e ∈ after, name < e.1) (a : α) : insertField name a after = (name, a) :: after := by
  cases after with
  | nil => rfl
  | cons e after => rw [insertField, if_pos (h e List.mem_cons_self)]

end TreeQuery
