import TreeQuery.Value

/-! Properties of a node: named values in the order in which their names were first set. -/

namespace TreeQuery

namespace Properties

/-- Sets a value where its name already stands, or at the end. -/
def set {α : Type} (name : String) (a : α) : List (String × α) → List (String × α)
  | [] => [(name, a)]
  | (other, b) :: entries =>
    if other = name then (name, a) :: entries else (other, b) :: set name a entries

theorem mem_names_set {α : Type} {name other : String} {a : α} {entries : List (String × α)} :
    other ∈ (set name a entries).map Prod.fst ↔
      other = name ∨ other ∈ entries.map Prod.fst := by
  induction entries with
  | nil => simp [set]
  | cons e es ih =>
    by_cases h : e.1 = name
    · simp [set, h]
    · simp only [set, h, if_false, List.map_cons, List.mem_cons, ih]
      exact or_left_comm

theorem nodup_set {α : Type} {name : String} {a : α} {entries : List (String × α)}
    (h : (entries.map Prod.fst).Nodup) : ((set name a entries).map Prod.fst).Nodup := by
  induction entries with
  | nil => simp [set]
  | cons e es ih =>
    rw [List.map_cons, List.nodup_cons] at h
    by_cases he : e.1 = name
    · subst he
      simpa [set] using h
    · rw [set, if_neg he, List.map_cons, List.nodup_cons, mem_names_set, not_or]
      exact ⟨⟨he, h.1⟩, ih h.2⟩

theorem lookup_set {α : Type} (name other : String) (a : α) (entries : List (String × α)) :
    (set name a entries).lookup other = if other = name then some a else entries.lookup other := by
  induction entries with
  | nil => simp [set, lookup_cons_eq_ite]
  | cons e es ih =>
    by_cases he : e.1 = name
    · subst he
      simp only [set, if_true, lookup_cons_eq_ite]
      split <;> rfl
    · simp only [set, he, if_false, lookup_cons_eq_ite, ih]
      by_cases h : other = name
      · simp [h, Ne.symm he]
      · simp [h]

end Properties

structure Properties where
  entries : List (String × Value)
  nodup : (entries.map Prod.fst).Nodup

namespace Properties

theorem ext_entries {ps qs : Properties} (h : ps.entries = qs.entries) : ps = qs := by
  cases ps
  cases qs
  cases h
  rfl

def empty : Properties := ⟨[], .nil⟩

instance : Inhabited Properties := ⟨empty⟩

def insert (ps : Properties) (name : String) (value : Value) : Properties :=
  ⟨set name value ps.entries, nodup_set ps.nodup⟩

def ofList (entries : List (String × Value)) : Properties :=
  entries.foldl (fun ps e => ps.insert e.1 e.2) empty

def get? (ps : Properties) (name : String) : Option Value := ps.entries.lookup name

theorem get?_insert (ps : Properties) (name other : String) (value : Value) :
    (ps.insert name value).get? other = if other = name then some value else ps.get? other :=
  lookup_set name other value ps.entries

def isEmpty (ps : Properties) : Bool := ps.entries.isEmpty

/-- The same names with the same values, in whatever order. -/
def same (ps qs : Properties) : Bool :=
  ps.entries.length == qs.entries.length &&
    ps.entries.all fun e => (qs.get? e.1).any e.2.same

end Properties

end TreeQuery
