import Mathlib.Data.Set.Card
import TreeQuery.Bindings.Packed
import TreeQuery.Proofs.Captures

/-! Packed bindings. Whatever is bound, in whatever order, the array holds the entries of the
bindings: halving finds a name or the gap that it belongs to, and a write there is an insertion into
the sorted list. So the array is determined by where each name leads. -/

namespace TreeQuery

namespace Bindings

variable {b c : Bindings} {name : String} {node : Nat}

theorem get?_ofCalls (calls : List (Option String × Nat)) (name : String) :
    (ofCalls calls).get? name =
      (calls.reverse.find? fun call => call.1 = some name).map Prod.snd := by
  induction calls using List.reverseRecOn with
  | nil => rfl
  | append_singleton calls call ih =>
    have hlast : ofCalls (calls ++ [call]) = (ofCalls calls).bind call.1 call.2 := by
      rw [ofCalls, List.foldl_concat, ofCalls]
    rw [hlast, get?_bind, ih, List.reverse_concat, List.find?_cons]
    by_cases h : call.1 = some name <;> simp [h]

theorem eq_iff_get? : b = c ↔ ∀ name, b.get? name = c.get? name :=
  ⟨fun h _ => h ▸ rfl, ext_get?⟩

theorem insert_eq_self_iff : b.insert name node = b ↔ b.get? name = some node := by
  constructor
  · intro h
    rw [← h, get?_insert, if_pos rfl]
  · intro h
    refine ext_get? fun other => ?_
    rw [get?_insert]
    split
    next he => rw [he, h]
    next => rfl

theorem insert_comm_iff {x y : String} {n m : Nat} :
    (b.insert x n).insert y m = (b.insert y m).insert x n ↔ x ≠ y ∨ n = m := by
  constructor
  · intro h
    by_cases hxy : x = y
    · subst hxy
      have hx := congrArg (·.get? x) h
      simp only [get?_insert, if_true, Option.some.injEq] at hx
      exact .inr hx.symm
    · exact .inl hxy
  · intro h
    refine ext_get? fun other => ?_
    simp only [get?_insert]
    rcases h with hne | rfl
    · by_cases hx : other = x
      · have hy : other ≠ y := fun hy => hne (hx.symm.trans hy)
        rw [if_neg hy, if_pos hx, if_pos hx]
      · rw [if_neg hx, if_neg hx]
    · split <;> split <;> rfl

theorem size_eq_ncard (b : Bindings) : b.size = {name | (b.get? name).isSome}.ncard := by
  have hnames : {name | (b.get? name).isSome} = ↑b.names.toFinset := by
    ext name
    simp only [Set.mem_ofPred_eq, Option.isSome_iff_exists, List.coe_toFinset, names, List.mem_map]
    constructor
    · rintro ⟨node, h⟩
      exact ⟨_, (mem_iff_lookup b.sorted name node).mpr h, rfl⟩
    · rintro ⟨e, he, rfl⟩
      exact ⟨e.2, (mem_iff_lookup b.sorted e.1 e.2).mp he⟩
  have hnodup : b.names.Nodup := b.sorted.nodup_names
  rw [hnames, Set.ncard_coe_finset, List.toFinset_card_of_nodup hnodup, names, List.length_map,
    size]

namespace Packed

variable {p q : Packed}

theorem entry_lt_entry (hs : Sorted p.entries.toList) {i j : Fin p.entries.size} (hij : i < j) :
    (p.entry i).1 < (p.entry j).1 :=
  List.pairwise_iff_getElem.mp hs i j (by simp) (by simp) hij

/-- Entry `i` does not come after the name, unless it is the first; all entries beyond it do. -/
structure Parts (p : Packed) (name : String) (i : Fin p.entries.size) : Prop where
  upTo : i.val = 0 ∨ ¬ name < (p.entry i).1
  beyond : ∀ j, i < j → name < (p.entry j).1

/-- The stretch begins at an entry, and all that is behind it comes after the name. Either half
keeps this, for the names grow. -/
theorem parts_narrow (hs : Sorted p.entries.toList) (base width : Nat) (hpos : 0 < width)
    (hsize : base + width ≤ p.entries.size)
    (hbase : ∀ i : Fin p.entries.size, i.val = base → base = 0 ∨ ¬ name < (p.entry i).1)
    (hend : ∀ j : Fin p.entries.size, base + width ≤ j → name < (p.entry j).1) :
    p.Parts name (p.narrow name base width hpos hsize) := by
  fun_induction narrow p name base width hpos hsize with
  | case1 base hpos hsize => exact ⟨hbase _ rfl, fun j hj => hend j hj⟩
  | case2 base width hpos hsize hone hlt ih =>
    refine ih hbase fun j hj => ?_
    rcases Nat.eq_or_lt_of_le (show base + width / 2 ≤ j by omega) with hmid | hmid
    · exact (Fin.ext hmid.symm : j = ⟨base + width / 2, _⟩) ▸ hlt
    · exact String.lt_trans hlt (entry_lt_entry hs hmid)
  | case3 base width hpos hsize hone hge ih =>
    refine ih (fun i hi => .inr ?_) fun j hj => hend j (by omega)
    exact (Fin.ext hi : i = ⟨base + width / 2, _⟩) ▸ hge

theorem entry_of_settle_eq_found {i k : Fin p.entries.size} (h : p.settle name k = .found i) :
    (p.entry i).1 = name := by
  rw [settle] at h
  split at h
  next hname =>
    cases h
    exact hname
  next => split at h <;> cases h

theorem entry_of_settle_eq_absent {k : Fin p.entries.size} {i : Fin (p.entries.size + 1)}
    (hs : Sorted p.entries.toList) (hk : p.Parts name k) (h : p.settle name k = .absent i) :
    (∀ j, j.val < i.val → (p.entry j).1 < name) ∧ ∀ j, i.val ≤ j.val → name < (p.entry j).1 := by
  rw [settle] at h
  split at h
  next => cases h
  next hname =>
    split at h
    next hlt =>
      cases h
      refine ⟨fun j hjk => ?_, fun j hkj => hk.beyond j hkj⟩
      rcases Nat.eq_or_lt_of_le (Nat.le_of_lt_succ hjk) with heq | hjk
      · exact Fin.ext heq ▸ hlt
      · exact String.lt_trans (entry_lt_entry hs hjk) hlt
    next hge =>
      cases h
      have hlt : name < (p.entry k).1 :=
        Decidable.byContradiction fun hle => hname (String.le_antisymm hle hge)
      have hfirst : k.val = 0 := hk.upTo.resolve_right fun hle => hle hlt
      refine ⟨fun j hjk => absurd hjk (by simp [hfirst]), fun j hkj => ?_⟩
      rcases Nat.eq_or_lt_of_le (show k.val ≤ j from hkj) with heq | hkj
      · exact Fin.ext heq ▸ hlt
      · exact hk.beyond j hkj

theorem entry_of_found {i : Fin p.entries.size} (h : p.position name = .found i) :
    (p.entry i).1 = name := by
  rw [position] at h
  split at h
  next => cases h
  next => exact entry_of_settle_eq_found h

theorem entry_of_absent {i : Fin (p.entries.size + 1)} (hs : Sorted p.entries.toList)
    (h : p.position name = .absent i) :
    (∀ j, j.val < i.val → (p.entry j).1 < name) ∧ ∀ j, i.val ≤ j.val → name < (p.entry j).1 := by
  rw [position] at h
  split at h
  next hempty => exact ⟨fun j => absurd j.isLt (by omega), fun j => absurd j.isLt (by omega)⟩
  next hsize =>
    refine entry_of_settle_eq_absent hs ?_ h
    exact parts_narrow hs 0 p.entries.size _ _ (fun _ _ => .inl rfl)
      fun j hj => absurd j.isLt (by omega)

theorem entries_of_found {i : Fin p.entries.size} (hs : Sorted p.entries.toList)
    (h : p.position name = .found i) :
    ∃ before after, p.entries.toList = before ++ (name, (p.entry i).2) :: after ∧
      before.length = i ∧ ∀ e ∈ before, e.1 < name := by
  have hname := entry_of_found h
  refine ⟨p.entries.toList.take i, p.entries.toList.drop (i + 1), ?_, by simp, fun e he => ?_⟩
  · have hi : i.val < p.entries.toList.length := by simp
    have hentry : p.entries.toList[i.val] = (name, (p.entry i).2) := by
      rw [← hname]
      rfl
    rw [← hentry, ← List.drop_eq_getElem_cons hi, List.take_append_drop]
  · obtain ⟨j, hj, rfl⟩ := List.mem_take_iff_getElem.mp he
    have hj : j < i.val := by omega
    have hji : (⟨j, Nat.lt_trans hj i.isLt⟩ : Fin p.entries.size) < i := hj
    rw [← hname]
    exact entry_lt_entry hs hji

theorem entries_of_absent {i : Fin (p.entries.size + 1)} (hs : Sorted p.entries.toList)
    (h : p.position name = .absent i) :
    ∃ before after, p.entries.toList = before ++ after ∧ before.length = i ∧
      (∀ e ∈ before, e.1 < name) ∧ ∀ e ∈ after, name < e.1 := by
  obtain ⟨hbefore, hafter⟩ := entry_of_absent hs h
  refine ⟨p.entries.toList.take i, p.entries.toList.drop i, (List.take_append_drop _ _).symm,
    by simp; omega, fun e he => ?_, fun e he => ?_⟩
  · obtain ⟨j, hj, rfl⟩ := List.mem_take_iff_getElem.mp he
    have hj : j < i ∧ j < p.entries.size := by simpa using hj
    exact hbefore ⟨j, hj.2⟩ hj.1
  · obtain ⟨j, hj, rfl⟩ := List.mem_drop_iff_getElem.mp he
    have hj : i.val + j < p.entries.size := by
      rw [Array.length_toList] at hj
      omega
    exact hafter ⟨i.val + j, hj⟩ (Nat.le_add_right _ _)

theorem get?_eq_lookup (hs : Sorted p.entries.toList) (name : String) :
    p.get? name = p.entries.toList.lookup name := by
  rw [get?]
  cases h : p.position name with
  | found i =>
    obtain ⟨before, after, heq, -, hbefore⟩ := entries_of_found hs h
    have hnone : before.lookup name = none :=
      List.lookup_eq_none_iff.mpr fun e he => by simpa using (String.ne_of_lt (hbefore e he)).symm
    rw [heq, List.lookup_append, hnone, List.lookup_cons_self]
    rfl
  | absent i =>
    obtain ⟨before, after, heq, -, hbefore, hafter⟩ := entries_of_absent hs h
    have hnone : (before ++ after).lookup name = none := by
      refine List.lookup_eq_none_iff.mpr fun e he => ?_
      rcases List.mem_append.mp he with he | he
      · simpa using (String.ne_of_lt (hbefore e he)).symm
      · simpa using String.ne_of_lt (hafter e he)
    rw [heq, hnone]

theorem contains_eq_isSome (p : Packed) (name : String) :
    p.contains name = (p.get? name).isSome := by
  rw [contains, get?]
  cases p.position name <;> rfl

theorem entries_insert (hs : Sorted p.entries.toList) (name : String) (node : Nat) :
    (p.insert name node).entries.toList = insertField name node p.entries.toList := by
  rw [insert]
  cases h : p.position name with
  | found i =>
    obtain ⟨before, after, heq, hlength, hbefore⟩ := entries_of_found hs h
    have hfield : insertField name node p.entries.toList = before ++ (name, node) :: after := by
      rw [heq, insertField_append hbefore, insertField, if_neg (String.lt_irrefl name),
        if_neg (String.lt_irrefl name)]
    dsimp only
    split
    next hnode => rw [hfield, heq, hnode]
    next =>
      rw [hfield, Array.toList_set, entry_of_found h, heq,
        List.set_append_right _ _ (Nat.le_of_eq hlength), hlength, Nat.sub_self, List.set_cons_zero]
  | absent i =>
    obtain ⟨before, after, heq, hlength, hbefore, hafter⟩ := entries_of_absent hs h
    have hsize : p.entries.size = before.length + after.length := by
      rw [← Array.length_toList, heq, List.length_append]
    rw [heq, insertField_append hbefore, insertField_of_forall_lt hafter]
    simp [heq, ← hlength, hsize]

theorem same_iff_eq : p.same q = true ↔ p = q := by
  obtain ⟨entries⟩ := p
  obtain ⟨others⟩ := q
  simp only [same, size, Bool.and_eq_true, beq_iff_eq, Array.all_eq_true, Packed.mk.injEq]
  constructor
  · rintro ⟨hsize, hall⟩
    refine Array.ext hsize fun i hi hj => ?_
    have hi := hall i (by simp; omega)
    rw [Array.getElem_zip] at hi
    exact Prod.ext hi.1 hi.2
  · rintro rfl
    exact ⟨rfl, fun i hi => by rw [Array.getElem_zip]; exact ⟨rfl, rfl⟩⟩

/-- The packed entries are those of the bindings, and so is every answer. -/
structure Shows (p : Packed) (b : Bindings) : Prop where
  entries_eq : p.entries.toList = b.entries
  get?_eq : ∀ name, p.get? name = b.get? name
  contains_eq : ∀ name, p.contains name = b.contains name
  size_eq : p.size = b.size

theorem shows_of_entries_eq (h : p.entries.toList = b.entries) : p.Shows b := by
  have hget (name : String) : p.get? name = b.get? name := by
    rw [get?_eq_lookup (h ▸ b.sorted), h, Bindings.get?]
  exact {
    entries_eq := h
    get?_eq := hget
    contains_eq := fun name => by rw [contains_eq_isSome, hget, Bindings.contains]
    size_eq := by rw [size, ← Array.length_toList, h, Bindings.size] }

namespace Shows

theorem sorted (h : p.Shows b) : Sorted p.entries.toList := h.entries_eq ▸ b.sorted

theorem bind (h : p.Shows b) (name : Option String) (node : Nat) :
    (p.bind name node).Shows (b.bind name node) := by
  cases name with
  | none => exact h
  | some name =>
    refine shows_of_entries_eq ?_
    rw [Packed.bind, entries_insert h.sorted, h.entries_eq, Bindings.bind, Bindings.insert]

theorem foldl_bind (h : p.Shows b) (calls : List (Option String × Nat)) :
    (calls.foldl (fun p call => p.bind call.1 call.2) p).Shows
      (calls.foldl (fun b call => b.bind call.1 call.2) b) := by
  induction calls generalizing p b with
  | nil => exact h
  | cons call calls ih => exact ih (h.bind call.1 call.2)

theorem eq_iff (hp : p.Shows b) (hq : q.Shows c) : p = q ↔ b = c := by
  rw [Packed.mk.injEq, ← Array.toList_inj, hp.entries_eq, hq.entries_eq, Bindings.mk.injEq]

end Shows

theorem shows_ofCalls (calls : List (Option String × Nat)) :
    (ofCalls calls).Shows (Bindings.ofCalls calls) :=
  (shows_of_entries_eq rfl : empty.Shows Bindings.empty).foldl_bind calls

/-- Whatever is bound one after the other, the array is that of the bindings: each name once, in
their order, with the node of the last call for it. It is the same as another exactly if every name
leads to the same node in both. So the order of two calls matters only if they take one name to two
nodes, and a call changes nothing exactly if its name leads to its node already. -/
theorem ofCalls_canonical (calls others : List (Option String × Nat)) :
    (ofCalls calls).Shows (Bindings.ofCalls calls) ∧
    let p := ofCalls calls
    let q := ofCalls others
    Sorted p.entries.toList ∧
    (∀ name, p.get? name = (calls.reverse.find? fun call => call.1 = some name).map Prod.snd) ∧
    (∀ name, p.contains name = (p.get? name).isSome) ∧
    p.size = {name | (p.get? name).isSome}.ncard ∧
    (p.same q = true ↔ ∀ name, p.get? name = q.get? name) ∧
    (p.same q = true ↔ Bindings.ofCalls calls = Bindings.ofCalls others) ∧
    (∀ x y n m, (p.bind (some x) n).bind (some y) m = (p.bind (some y) m).bind (some x) n ↔
      x ≠ y ∨ n = m) ∧
    ∀ name node, p.bind (some name) node = p ↔ p.get? name = some node := by
  have hp := shows_ofCalls calls
  have hq := shows_ofCalls others
  have hsame := same_iff_eq.trans (hp.eq_iff hq)
  refine ⟨hp, hp.sorted, fun name => ?get, contains_eq_isSome _, ?size, ?same, hsame,
    fun x y n m => ?commute, fun name node => ?rebind⟩
  case get => rw [hp.get?_eq, get?_ofCalls]
  case size => simp only [hp.get?_eq, hp.size_eq, size_eq_ncard]
  case same => simp only [hp.get?_eq, hq.get?_eq, hsame, eq_iff_get?]
  case commute =>
    have hxy := (hp.bind (some x) n).bind (some y) m
    have hyx := (hp.bind (some y) m).bind (some x) n
    exact (hxy.eq_iff hyx).trans insert_comm_iff
  case rebind =>
    rw [hp.get?_eq]
    exact ((hp.bind (some name) node).eq_iff hp).trans insert_eq_self_iff

/-- A name bound twice, and a call without a name. -/
example :
    (ofCalls [(some "c", 1), (some "a", 2), (none, 3), (some "b", 1), (some "a", 4)]).entries =
      #[("a", 4), ("b", 1), ("c", 1)] := by cbv

end Packed

end Bindings

end TreeQuery
