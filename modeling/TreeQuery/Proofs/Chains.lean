import Mathlib.Data.List.Basic
import TreeQuery.Proofs.FirstOccurrences
import TreeQuery.Proofs.Results

/-! Chains of parts. Without deduplication a chain is the composition of its parts, and what it
finds then, deduplicated once, is what it finds with a deduplication after each part. -/

namespace TreeQuery

/-- The running states go on independently of each other. -/
theorem foldl_flatMap_eq (parts : List Find) (running : List State) :
    parts.foldl (fun running part => running.flatMap part) running =
      running.flatMap (chain id parts) := by
  induction parts generalizing running with
  | nil => exact (List.flatMap_singleton' running).symm
  | cons part parts ih =>
    rw [List.foldl_cons, ih, List.flatMap_assoc]
    refine List.flatMap_congr fun u _ => ?_
    rw [← ih, chain, List.foldl_cons, id, List.flatMap_singleton]
    rfl

theorem chain_id_cons (part : Find) (parts : List Find) (s : State) :
    chain id (part :: parts) s = (part s).flatMap (chain id parts) := by
  rw [← foldl_flatMap_eq, chain, List.foldl_cons, id, List.flatMap_singleton]
  rfl

theorem chain_id_append (front back : List Find) (s : State) :
    chain id (front ++ back) s = (chain id front s).flatMap (chain id back) := by
  induction front generalizing s with
  | nil => exact (List.flatMap_singleton _ s).symm
  | cons part front ih =>
    rw [List.cons_append, chain_id_cons, chain_id_cons, List.flatMap_assoc]
    exact List.flatMap_congr fun u _ => ih u

theorem chain_sameFirsts {ι : Type} (parts : List ι) {find other : ι → Find}
    (h : ∀ i ∈ parts, ∀ s, SameFirsts (find i s) (other i s)) (s : State) :
    SameFirsts (chain id (parts.map find) s) (chain List.eraseDups (parts.map other) s) := by
  rw [chain, chain, List.foldl_map, List.foldl_map]
  apply List.foldl_rel (r := SameFirsts) (.refl _)
  intro i hi naive found hn
  exact (hn.flatMap (h i hi)).trans (SameFirsts.eraseDups _).symm

theorem nodup_chain (parts : List Find) (s : State) : (chain List.eraseDups parts s).Nodup := by
  rcases List.eq_nil_or_concat parts with rfl | ⟨front, last, rfl⟩
  · exact List.pairwise_singleton _ s
  · rw [List.concat_eq_append, chain_concat]
    exact nodup_eraseDups _

/-- It is enough to deduplicate once, at the end. -/
theorem chain_eraseDups_eq (parts : List Find) (s : State) :
    chain List.eraseDups parts s = (chain id parts s).eraseDups := by
  have hsame : SameFirsts (chain id (parts.map id) s) (chain List.eraseDups (parts.map id) s) :=
    chain_sameFirsts parts (fun _ _ _ => .refl _) s
  rw [List.map_id] at hsame
  rw [hsame, eraseDups_eq_self (nodup_chain parts s)]

theorem mem_chain_cons_iff {part : Find} {parts : List Find} {s r : State} :
    r ∈ chain List.eraseDups (part :: parts) s ↔
      ∃ u ∈ part s, r ∈ chain List.eraseDups parts u := by
  simp only [chain_eraseDups_eq, List.mem_eraseDups, chain_id_cons, List.mem_flatMap]

theorem mem_chain_append_iff {front back : List Find} {s r : State} :
    r ∈ chain List.eraseDups (front ++ back) s ↔
      ∃ u ∈ chain List.eraseDups front s, r ∈ chain List.eraseDups back u := by
  simp only [chain_eraseDups_eq, List.mem_eraseDups, chain_id_append, List.mem_flatMap]

end TreeQuery
