import Mathlib.Order.Lattice.Nat
import Mathlib.Order.WithBot
import TreeQuery.Proofs.Cursors

/-! Tree order. Two ids compare as the paths that lead to them from the root down, and so as
numbers; the later of two cursors is their maximum, where a cursor of none is past every id. -/

namespace TreeQuery

namespace LinkedTree

variable {t : Tree Nat}

theorem compare_fin (t : Tree Nat) :
    (fun a b : Fin (ofTree t).size => (ofTree t).compare a b) = Ord.compare := by
  funext a b
  exact compare_eq (size_ofTree ▸ a.isLt) (size_ofTree ▸ b.isLt)

theorem compare_eq_compare_path (t : LinkedTree) (a b : Nat) :
    t.compare a b = Ord.compare (t.path a).toList (t.path b).toList := by
  rw [compare]
  split
  next h => rw [h, Std.compare_self]
  next => rfl

theorem path_inj {a b : Nat} (ha : a < t.size) (hb : b < t.size)
    (h : (ofTree t).path a = (ofTree t).path b) : a = b := by
  have heq : (ofTree t).compare a b = .eq := by
    rw [compare_eq_compare_path, h, Std.compare_self]
  rw [compare_eq ha hb] at heq
  exact Nat.compare_eq_eq.mp heq

theorem compare_ancestor {a id : Nat} (h : a ∈ (ofTree t).ancestors id) :
    (ofTree t).compare a id = .lt := by
  have hid := lt_size_of_mem_ancestors h
  have hlt := (stop_ancestor h).1
  rw [compare_eq (Nat.lt_trans hlt hid) hid, Nat.compare_eq_lt]
  exact hlt

end LinkedTree

namespace State

variable {t : Tree Nat} {r u : State}

/-- The cursor among the ids, none being the top. -/
def place (s : State) : WithTop Nat :=
  match s.cursor with
  | some id => WithTop.some id
  | none => ⊤

theorem place_eq_iff : r.place = u.place ↔ r.cursor = u.cursor := by
  rw [place, place]
  cases r.cursor <;> cases u.cursor <;> simp

theorem place_notBefore (hr : r.InTree (.ofTree t)) (hu : u.InTree (.ofTree t)) :
    (r.notBefore (.ofTree t) u).place = max r.place u.place := by
  rw [notBefore_eq hr hu, place, place, place]
  cases r.cursor <;> cases u.cursor <;> simp

end State

namespace LinkedTree

/-- Tree order is the order of ids: it is total and tells all ids apart, as their paths do, and puts
what is above a node before it. Of two cursors the later one is the maximum in this order, with
nothing else of the state changed. -/
theorem compare_orders_ids (t : Tree Nat) :
    let tree := ofTree t
    (∀ a b : Fin tree.size, tree.compare a b = Ord.compare a.val b.val ∧
      tree.compare a b = Ord.compare (tree.path a).toList (tree.path b).toList) ∧
    (∀ a b : Fin tree.size, tree.path a = tree.path b → a = b) ∧
    (Std.TransCmp fun a b : Fin tree.size => tree.compare a b) ∧
    (∀ a b : Fin tree.size, tree.compare a b = .eq ↔ a = b) ∧
    (∀ a b : Fin tree.size, a.val ∈ tree.ancestors b → tree.compare a b = .lt) ∧
    ∀ r u v : State, r.InTree tree → u.InTree tree → v.InTree tree →
      (r.notBefore tree u).place = max r.place u.place ∧
      r.notBefore tree u = { r with cursor := (r.notBefore tree u).cursor } ∧
      (r.notBefore tree u).cursor = (u.notBefore tree r).cursor ∧
      ((r.notBefore tree u).notBefore tree v).cursor =
        (r.notBefore tree (u.notBefore tree v)).cursor ∧
      (r.notBefore tree r).cursor = r.cursor := by
  intro tree
  have hsize : tree.size = t.size := size_ofTree
  have hcompare := compare_fin t
  refine ⟨fun a b => ⟨congrFun₂ hcompare a b, compare_eq_compare_path tree a b⟩,
    fun a b h => Fin.ext (path_inj (hsize ▸ a.isLt) (hsize ▸ b.isLt) h), ?_, fun a b => ?_,
    fun a b h => compare_ancestor h, fun r u v hr hu hv => ⟨?_, ?_, ?_, ?_, ?_⟩⟩
  · rw [hcompare]
    infer_instance
  · rw [congrFun₂ hcompare a b, Std.compare_eq_iff_eq]
  · exact State.place_notBefore hr hu
  · rw [State.notBefore_eq hr hu]
  · rw [← State.place_eq_iff, State.place_notBefore hr hu, State.place_notBefore hu hr, max_comm]
  · rw [State.notBefore_assoc hr hu hv]
  · rw [← State.place_eq_iff, State.place_notBefore hr hr, max_self]

/-- A node two levels down and the sibling of its parent: the deeper one is the earlier one. -/
theorem compare_orders_ids_across_levels :
    let t : Tree Nat := .node 0 [.node 1 [.node 2 [], .node 3 []], .node 4 [.node 5 []], .node 6 []]
    let tree := ofTree t
    let r : State := ⟨0, some 3, .ofList [("R", 3)]⟩
    let u : State := ⟨0, some 4, .empty⟩
    let v : State := ⟨0, none, .empty⟩
    (r.InTree tree ∧ u.InTree tree ∧ v.InTree tree) ∧
      tree.path 3 = #[0, 1] ∧ tree.path 4 = #[1] ∧ tree.compare 3 4 = .lt ∧
      (r.notBefore tree u).place = max r.place u.place ∧ (r.notBefore tree u).cursor = some 4 ∧
      ((r.notBefore tree u).notBefore tree v).cursor =
        (r.notBefore tree (u.notBefore tree v)).cursor := by
  intro t tree r u v
  have hr : r.InTree tree := by
    rintro c ⟨⟩
    decide +kernel
  have hu : u.InTree tree := by
    rintro c ⟨⟩
    decide +kernel
  have hv : v.InTree tree := by
    rintro c ⟨⟩
  obtain ⟨hcompare, -, -, -, -, hlater⟩ := compare_orders_ids t
  obtain ⟨hplace, -, -, hassoc, -⟩ := hlater r u v hr hu hv
  have hlt : tree.compare 3 4 = .lt :=
    (hcompare ⟨3, hr 3 rfl⟩ ⟨4, hu 4 rfl⟩).1.trans rfl
  exact ⟨⟨hr, hu, hv⟩, by decide +kernel, by decide +kernel, hlt, hplace, by decide +kernel, hassoc⟩

end LinkedTree

end TreeQuery
