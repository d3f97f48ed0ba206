import TreeQuery.Proofs.Journal
import TreeQuery.Proofs.SearchNotes

/-! The look-ups of a journal, table by table. Each evaluation of a container has a table for each
of its children. However many look-ups of other tables lie between them, those of one table stand in
a journal in the order in which they are made, and whether one of them is right depends on them
alone. -/

namespace TreeQuery

/-- The table that is asked: that of one child, in one evaluation of its container. -/
def Lookup.table (l : Lookup) : Route × Nat := (l.route, l.child)

/-- A look-up that comes after those in `front`. -/
structure Lookup.Justified (l : Lookup) (front : List Lookup) : Prop where
  later_child : l.hit → l.mode = .unordered ∧ 0 < l.child
  once : l.mode ≠ .unordered → ∀ e ∈ front, e.table = l.table → e.before ≠ l.before
  hit_iff : l.mode = .unordered →
    (l.hit ↔ ∃ e ∈ front, e.table = l.table ∧ e.before.bindings = l.before.bindings)

def Orderly (ls : List Lookup) : Prop :=
  ∀ front l back, ls = front ++ l :: back → l.Justified front

/-- Other tables do not matter. -/
theorem Lookup.justified_filter_iff {l : Lookup} {front : List Lookup} :
    l.Justified (front.filter (·.table = l.table)) ↔ l.Justified front := by
  have hmem (P : Lookup → Prop) :
      (∃ e ∈ front.filter (·.table = l.table), e.table = l.table ∧ P e) ↔
        ∃ e ∈ front, e.table = l.table ∧ P e := by
    simp only [List.mem_filter, decide_eq_true_eq, and_assoc, and_self_left]
  have hall : (∀ e ∈ front.filter (·.table = l.table), e.table = l.table → e.before ≠ l.before) ↔
      ∀ e ∈ front, e.table = l.table → e.before ≠ l.before := by
    simp only [List.mem_filter, decide_eq_true_eq, and_imp]
    exact forall₂_congr fun e _ => ⟨fun h ht => h ht ht, fun h _ => h⟩
  constructor
  · exact fun h => ⟨h.later_child, fun hm => hall.mp (h.once hm),
      fun hm => (h.hit_iff hm).trans (hmem _)⟩
  · exact fun h => ⟨h.later_child, fun hm => hall.mpr (h.once hm),
      fun hm => (h.hit_iff hm).trans (hmem _).symm⟩

namespace Orderly

variable {ls ms : List Lookup}

theorem nil : Orderly [] := by
  intro front l back h
  simp at h

theorem of_isPrefix (h : Orderly ms) (hpre : ls <+: ms) : Orderly ls := by
  rintro front l back rfl
  obtain ⟨rest, rfl⟩ := hpre
  exact h front l (back ++ rest) (by simp)

theorem of_tables (h : ∀ table, Orderly (ls.filter (·.table = table))) : Orderly ls := by
  rintro front l back rfl
  rw [← Lookup.justified_filter_iff]
  refine h l.table _ l (back.filter (·.table = l.table)) ?_
  rw [List.filter_append, List.filter_cons_of_pos (by simp)]

theorem filter_table (h : Orderly ls) (table : Route × Nat) :
    Orderly (ls.filter (·.table = table)) := by
  intro front l back hfilter
  obtain ⟨front', rest, rfl, rfl, hrest⟩ := List.filter_eq_append_iff.mp hfilter
  obtain ⟨skipped, back', rfl, hskipped, hl, -⟩ := List.filter_eq_cons_iff.mp hrest
  obtain rfl : l.table = table := by simpa using hl
  have hfront : front'.filter (·.table = l.table) =
      (front' ++ skipped).filter (·.table = l.table) := by
    rw [List.filter_append, List.filter_eq_nil_iff.mpr hskipped, List.append_nil]
  rw [hfront, Lookup.justified_filter_iff]
  exact h _ l back' (by simp)

end Orderly

theorem filter_table_eq_nil_or {ls ms : List Lookup} (h : ∀ l ∈ ls, ∀ m ∈ ms, l.table ≠ m.table)
    (table : Route × Nat) :
    ls.filter (·.table = table) = [] ∨ ms.filter (·.table = table) = [] := by
  by_cases hl : ∃ l ∈ ls, l.table = table
  · obtain ⟨l, hl, rfl⟩ := hl
    exact .inr (List.filter_eq_nil_iff.mpr fun m hm => by simpa using (h l hl m hm).symm)
  · exact .inl (List.filter_eq_nil_iff.mpr fun l hm => by simpa using fun ht => hl ⟨l, hm, ht⟩)

theorem Orderly.append {ls ms : List Lookup} (hls : Orderly ls) (hms : Orderly ms)
    (h : ∀ l ∈ ls, ∀ m ∈ ms, l.table ≠ m.table) : Orderly (ls ++ ms) := by
  refine .of_tables fun table => ?_
  rw [List.filter_append]
  rcases filter_table_eq_nil_or h table with hnil | hnil
  · rw [hnil, List.nil_append]
    exact hms.filter_table table
  · rw [hnil, List.append_nil]
    exact hls.filter_table table

theorem Orderly.flatMap {α : Type} {l : List α} {g : α → List Lookup} (h : ∀ a ∈ l, Orderly (g a))
    (hpair : l.Pairwise fun a b => ∀ x ∈ g a, ∀ y ∈ g b, x.table ≠ y.table) :
    Orderly (l.flatMap g) := by
  induction hpair with
  | nil => exact .nil
  | @cons a l ha _ ih =>
    obtain ⟨hfirst, hrest⟩ := List.forall_mem_cons.mp h
    rw [List.flatMap_cons]
    refine hfirst.append (ih hrest) fun x hx y hy => ?_
    obtain ⟨b, hb, hy⟩ := List.mem_flatMap.mp hy
    exact ha b hb x hx y hy

theorem flatMap_of_pairwise_nil {α β : Type} {l : List α} {g : α → List β}
    (h : l.Pairwise fun a b => g a = [] ∨ g b = []) :
    l.flatMap g = [] ∨ ∃ a ∈ l, l.flatMap g = g a := by
  induction h with
  | nil => exact .inl rfl
  | @cons a l ha _ ih =>
    rw [List.flatMap_cons]
    by_cases hga : g a = []
    · rw [hga, List.nil_append]
      exact ih.imp_right fun ⟨b, hb, hl⟩ => ⟨b, List.mem_cons_of_mem a hb, hl⟩
    · have hrest : l.flatMap g = [] :=
        List.flatMap_eq_nil_iff.mpr fun b hb => (ha b hb).resolve_left hga
      rw [hrest, List.append_nil]
      exact .inr ⟨a, List.mem_cons_self, rfl⟩

theorem lookups_flatMap {α β : Type} {f : α → Journal β} {run : Journal α} (h : run.lookups = []) :
    (run.flatMap f).lookups = run.items.flatMap fun a => (f a).lookups := by
  rw [Search.lookups, Search.flatMap_eq_flatMapAfter f [],
    Search.filterMap_notes_flatMapAfter_of_parts [] h, ← map_snd_withEarlier [] run.items,
    List.flatMap_map, map_snd_withEarlier]
  rfl

theorem lookups_announce {α : Type} (wanted : Bool) (event : α → Event) (run : Journal α) :
    (run.announce wanted fun a => .other (event a)).lookups = run.lookups := by
  induction run with
  | stop => rfl
  | note n rest ih =>
    simp only [Search.lookups, Search.announce, Search.notes, List.filterMap_cons] at ih ⊢
    rw [ih]
  | yield a rest ih =>
    simp only [Search.lookups, Search.announce, Search.notes_noteIf, Search.notes] at ih ⊢
    split
    · rw [List.filterMap_cons_none rfl, ih]
    · rw [ih]

theorem mem_lookups_flatMapAfter {α β : Type} {f : List α → α → Journal β} {run : Journal α}
    {l : Lookup} :
    l ∈ (run.flatMapAfter f []).lookups ↔
      l ∈ run.lookups ∨ ∃ x ∈ withEarlier [] run.items, l ∈ (f x.1 x.2).lookups := by
  simp only [Search.lookups, List.mem_filterMap, Search.mem_notes_flatMapAfter]
  constructor
  · rintro ⟨n, hn | ⟨x, hx, hn⟩, hl⟩
    · exact .inl ⟨n, hn, hl⟩
    · exact .inr ⟨x, hx, n, hn, hl⟩
  · rintro (⟨n, hn, hl⟩ | ⟨x, hx, n, hn, hl⟩)
    · exact ⟨n, .inl hn, hl⟩
    · exact ⟨n, .inr ⟨x, hx, hn⟩, hl⟩

/-- A table is asked by the source or by what is found below its items. -/
theorem orderly_flatMapAfter {α β : Type} {f : List α → α → Journal β} {run : Journal α}
    (hrun : Orderly run.lookups)
    (hdisjoint : ∀ l ∈ run.lookups, ∀ x ∈ withEarlier [] run.items,
      ∀ m ∈ (f x.1 x.2).lookups, l.table ≠ m.table)
    (hparts : ∀ table, Orderly ((withEarlier [] run.items).flatMap fun x =>
      (f x.1 x.2).lookups.filter (·.table = table))) :
    Orderly (run.flatMapAfter f []).lookups := by
  refine .of_tables fun table => ?_
  let kind := fun n : Note => n.lookup?.filter (·.table = table)
  have hkind {γ : Type} (run : Journal γ) :
      run.lookups.filter (·.table = table) = run.notes.filterMap kind :=
    List.filter_filterMap
  by_cases hnone : run.lookups.filter (·.table = table) = []
  · rw [hkind] at hnone ⊢
    rw [Search.filterMap_notes_flatMapAfter_of_parts [] hnone]
    simp only [← hkind]
    exact hparts table
  · have hparts : ∀ x ∈ withEarlier [] run.items, (f x.1 x.2).notes.filterMap kind = [] := by
      intro x hx
      rw [← hkind]
      exact (filter_table_eq_nil_or (fun l hl => hdisjoint l hl x hx) table).resolve_left hnone
    rw [hkind, Search.filterMap_notes_flatMapAfter_of_source hparts, ← hkind]
    exact hrun.filter_table table

/-! ### Parts of an evaluation -/

/-- A look-up made by an evaluation of a query, at the end of a route, or by one inside it. -/
inductive Located : Query → Route → Lookup → Prop where
  | own {mode : Mode} {children : List Query} {route : Route} {l : Lookup}
      (hmode : mode.requiresAll) (hroute : l.route = route) (hsame : l.mode = mode)
      (hchild : children[l.child]? = some l.query) : Located (.container mode children) route l
  | child {mode : Mode} {children : List Query} {route : Route} {l : Lookup} {q : Query}
      (frame : Frame) (hq : children[frame.part]? = some q) (h : Located q (frame :: route) l) :
      Located (.container mode children) route l
  | nested {f : Filter} {nested : Query} {route : Route} {l : Lookup} (start : State)
      (h : Located nested (⟨0, start⟩ :: route) l) : Located (.single f nested) route l

theorem Located.suffix {q : Query} {route : Route} {l : Lookup} (h : Located q route l) :
    route <:+ l.route := by
  induction h with
  | own _ hroute => exact hroute ▸ List.suffix_refl _
  | child frame _ _ ih => exact (List.suffix_cons frame _).trans ih
  | nested start _ ih => exact (List.suffix_cons _ _).trans ih

theorem frame_eq_of_suffix {frame frame' : Frame} {route r : Route} (h : frame :: route <:+ r)
    (h' : frame' :: route <:+ r) : frame = frame' := by
  have hsame := List.suffix_of_suffix_length_le h h' (by simp)
  exact (List.cons.inj (hsame.eq_of_length (by simp))).1

theorem not_cons_suffix {frame : Frame} {route : Route} : ¬ frame :: route <:+ route := by
  intro h
  have hle := h.length_le
  rw [List.length_cons] at hle
  omega

/-- Made on account of the child at `i`, by the evaluation at the end of the route or inside it. -/
def Lookup.InPart (route : Route) (i : Nat) (l : Lookup) : Prop :=
  (l.route = route ∧ l.child = i) ∨ ∃ start, ⟨i, start⟩ :: route <:+ l.route

theorem Lookup.InPart.eq_of_table_eq {route : Route} {i j : Nat} {l m : Lookup}
    (hl : l.InPart route i) (hm : m.InPart route j) (h : l.table = m.table) : i = j := by
  obtain ⟨hroute, hchild⟩ := Prod.mk.inj h
  rcases hl with ⟨hl, rfl⟩ | ⟨start, hl⟩
  · rcases hm with ⟨-, rfl⟩ | ⟨start', hm⟩
    · exact hchild
    · rw [← hroute, hl] at hm
      exact absurd hm not_cons_suffix
  · rcases hm with ⟨hm, -⟩ | ⟨start', hm⟩
    · rw [hroute, hm] at hl
      exact absurd hl not_cons_suffix
    · rw [← hroute] at hm
      exact congrArg Frame.part (frame_eq_of_suffix hl hm)

/-- What is known of the look-ups of one evaluation. -/
structure Tidy (q : Query) (route : Route) (ls : List Lookup) : Prop where
  orderly : Orderly ls
  located : ∀ l ∈ ls, Located q route l

/-- Runs of one part from different states ask different tables. -/
theorem Tidy.table_ne {q q' : Query} {route : Route} {frame frame' : Frame} {ls ms : List Lookup}
    (hl : Tidy q (frame :: route) ls) (hm : Tidy q' (frame' :: route) ms) (hne : frame ≠ frame') :
    ∀ l ∈ ls, ∀ m ∈ ms, l.table ≠ m.table := by
  intro l hml m hmm h
  have hroute := (Prod.mk.inj h).1
  exact hne (frame_eq_of_suffix (hroute ▸ (hl.located l hml).suffix) (hm.located m hmm).suffix)

theorem Tidy.of_isPrefix {q : Query} {route : Route} {ls ms : List Lookup} (h : Tidy q route ms)
    (hpre : ls <+: ms) : Tidy q route ls :=
  ⟨h.orderly.of_isPrefix hpre, fun l hl => h.located l (hpre.subset hl)⟩

theorem orderly_flatMap_of_tidy {α : Type} {q : Query} {route : Route} {l : List α}
    {frame : α → Frame} {ls : α → List Lookup} (hframes : l.Pairwise fun a b => frame a ≠ frame b)
    (h : ∀ a ∈ l, Tidy q (frame a :: route) (ls a)) : Orderly (l.flatMap ls) :=
  .flatMap (fun a ha => (h a ha).orderly)
    (hframes.imp_of_mem fun ha hb hne => (h _ ha).table_ne (h _ hb) hne)

end TreeQuery
