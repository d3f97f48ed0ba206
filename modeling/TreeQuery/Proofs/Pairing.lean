import Mathlib.Data.List.Induction
import TreeQuery.Proofs.Chains

/-! Searches whose results correspond, whatever their order and however often they come. The
relation goes through everything that a container does with the results of its children. -/

namespace TreeQuery

/-- Each member of either list is related to one of the other. -/
structure Paired {α β : Type} (R : α → β → Prop) (l : List α) (m : List β) : Prop where
  left : ∀ a ∈ l, ∃ b ∈ m, R a b
  right : ∀ b ∈ m, ∃ a ∈ l, R a b

namespace Paired

variable {α β γ δ : Type} {R : α → β → Prop} {S : γ → δ → Prop} {l l' : List α} {m m' : List β}

theorem refl {R : α → α → Prop} (hrefl : ∀ a, R a a) (l : List α) : Paired R l l :=
  ⟨fun a ha => ⟨a, ha, hrefl a⟩, fun a ha => ⟨a, ha, hrefl a⟩⟩

theorem nil : Paired R [] [] := ⟨by simp, by simp⟩

theorem singleton {a : α} {b : β} (h : R a b) : Paired R [a] [b] := ⟨by simpa, by simpa⟩

theorem of_forall (h : ∀ a ∈ l, ∀ b ∈ m, R a b) (hnil : l = [] ↔ m = []) : Paired R l m where
  left := by
    intro a ha
    have hl : l ≠ [] := fun he => by simp [he] at ha
    obtain ⟨b, hb⟩ := List.exists_mem_of_ne_nil m (mt hnil.mpr hl)
    exact ⟨b, hb, h a ha b hb⟩
  right := by
    intro b hb
    have hm : m ≠ [] := fun he => by simp [he] at hb
    obtain ⟨a, ha⟩ := List.exists_mem_of_ne_nil l (mt hnil.mp hm)
    exact ⟨a, ha, h a ha b hb⟩

/-- Members that are related may be known to be more closely related. -/
theorem imp (h : Paired R l m) {S : α → β → Prop} (hS : ∀ a ∈ l, ∀ b, R a b → S a b) :
    Paired S l m where
  left := by
    intro a ha
    obtain ⟨b, hb, hab⟩ := h.left a ha
    exact ⟨b, hb, hS a ha b hab⟩
  right := by
    intro b hb
    obtain ⟨a, ha, hab⟩ := h.right b hb
    exact ⟨a, ha, hS a ha b hab⟩

theorem append (h : Paired R l m) (h' : Paired R l' m') : Paired R (l ++ l') (m ++ m') where
  left := by
    intro a ha
    rcases List.mem_append.mp ha with ha | ha
    · obtain ⟨b, hb, hab⟩ := h.left a ha
      exact ⟨b, List.mem_append_left _ hb, hab⟩
    · obtain ⟨b, hb, hab⟩ := h'.left a ha
      exact ⟨b, List.mem_append_right _ hb, hab⟩
  right := by
    intro b hb
    rcases List.mem_append.mp hb with hb | hb
    · obtain ⟨a, ha, hab⟩ := h.right b hb
      exact ⟨a, List.mem_append_left _ ha, hab⟩
    · obtain ⟨a, ha, hab⟩ := h'.right b hb
      exact ⟨a, List.mem_append_right _ ha, hab⟩

theorem flatMap (h : Paired R l m) {f : α → List γ} {g : β → List δ}
    (hfg : ∀ a b, R a b → Paired S (f a) (g b)) : Paired S (l.flatMap f) (m.flatMap g) where
  left := by
    intro c hc
    obtain ⟨a, ha, hc⟩ := List.mem_flatMap.mp hc
    obtain ⟨b, hb, hab⟩ := h.left a ha
    obtain ⟨d, hd, hcd⟩ := (hfg a b hab).left c hc
    exact ⟨d, List.mem_flatMap.mpr ⟨b, hb, hd⟩, hcd⟩
  right := by
    intro d hd
    obtain ⟨b, hb, hd⟩ := List.mem_flatMap.mp hd
    obtain ⟨a, ha, hab⟩ := h.right b hb
    obtain ⟨c, hc, hcd⟩ := (hfg a b hab).right d hd
    exact ⟨c, List.mem_flatMap.mpr ⟨a, ha, hc⟩, hcd⟩

theorem map (h : Paired R l m) {f : α → γ} {g : β → δ} (hfg : ∀ a b, R a b → S (f a) (g b)) :
    Paired S (l.map f) (m.map g) := by
  rw [List.map_eq_flatMap, List.map_eq_flatMap]
  exact h.flatMap fun a b hab => singleton (hfg a b hab)

theorem filter (h : Paired R l m) {p : α → Bool} {q : β → Bool} (hpq : ∀ a b, R a b → p a = q b) :
    Paired R (l.filter p) (m.filter q) where
  left := by
    intro a ha
    obtain ⟨ha, hp⟩ := List.mem_filter.mp ha
    obtain ⟨b, hb, hab⟩ := h.left a ha
    exact ⟨b, List.mem_filter.mpr ⟨hb, hpq a b hab ▸ hp⟩, hab⟩
  right := by
    intro b hb
    obtain ⟨hb, hq⟩ := List.mem_filter.mp hb
    obtain ⟨a, ha, hab⟩ := h.right b hb
    exact ⟨a, List.mem_filter.mpr ⟨ha, (hpq a b hab).symm ▸ hq⟩, hab⟩

theorem eraseDups [BEq α] [LawfulBEq α] [BEq β] [LawfulBEq β] (h : Paired R l m) :
    Paired R l.eraseDups m.eraseDups where
  left := by simpa using h.left
  right := by simpa using h.right

theorem mem_iff {l m : List α} (h : Paired (· = ·) l m) (a : α) : a ∈ l ↔ a ∈ m := by
  constructor
  · intro ha
    obtain ⟨b, hb, rfl⟩ := h.left a ha
    exact hb
  · intro ha
    obtain ⟨b, hb, rfl⟩ := h.right a ha
    exact hb

theorem eq_nil_iff (h : Paired R l m) : l = [] ↔ m = [] := by
  rw [List.eq_nil_iff_forall_not_mem, List.eq_nil_iff_forall_not_mem]
  constructor
  · intro hl b hb
    obtain ⟨a, ha, _⟩ := h.right b hb
    exact hl a ha
  · intro hm a ha
    obtain ⟨b, hb, _⟩ := h.left a ha
    exact hm b hb

theorem isEmpty_eq (h : Paired R l m) : l.isEmpty = m.isEmpty := by
  rw [Bool.eq_iff_iff, List.isEmpty_iff, List.isEmpty_iff, h.eq_nil_iff]

end Paired

section Folds

variable {ι : Type} {parts : List ι} {find other : ι → Find}
  {s s' : State}

/-- Each part may rely on what holds while it and the parts after it are still to come. -/
theorem exists_mem_chain {R : List ι → State → State → Prop}
    (h : ∀ i ∈ parts, ∀ rest s s', R (i :: rest) s s' →
      ∀ r ∈ find i s, ∃ r' ∈ other i s', R rest r r')
    (hs : R parts s s') {r : State} (hr : r ∈ chain List.eraseDups (parts.map find) s) :
    ∃ r' ∈ chain List.eraseDups (parts.map other) s', R [] r r' := by
  induction parts generalizing s s' with
  | nil =>
    obtain rfl : r = s := by simpa [chain] using hr
    exact ⟨s', by simp [chain], hs⟩
  | cons i rest ih =>
    obtain ⟨hi, hrest⟩ := List.forall_mem_cons.mp h
    obtain ⟨u, hu, hr⟩ := mem_chain_cons_iff.mp hr
    obtain ⟨u', hu', huu⟩ := hi rest s s' hs u hu
    obtain ⟨r', hr', hrr⟩ := ih hrest huu hr
    exact ⟨r', mem_chain_cons_iff.mpr ⟨u', hu', hr'⟩, hrr⟩

theorem chain_paired_of_rest {R : List ι → State → State → Prop}
    (h : ∀ i ∈ parts, ∀ rest s s', R (i :: rest) s s' → Paired (R rest) (find i s) (other i s'))
    (hs : R parts s s') :
    Paired (R []) (chain List.eraseDups (parts.map find) s)
      (chain List.eraseDups (parts.map other) s') where
  left := fun _ hr => exists_mem_chain (fun i hi rest u u' hu => (h i hi rest u u' hu).left) hs hr
  right := fun _ hr => exists_mem_chain (R := fun rest u' u => R rest u u')
    (fun i hi rest u' u hu => (h i hi rest u u' hu).right) hs hr

theorem chain_paired {R : State → State → Prop}
    (h : ∀ i ∈ parts, ∀ s s', R s s' → Paired R (find i s) (other i s')) (hs : R s s') :
    Paired R (chain List.eraseDups (parts.map find) s)
      (chain List.eraseDups (parts.map other) s') :=
  chain_paired_of_rest (R := fun _ => R) (fun i hi _ => h i hi) hs

theorem exists_mem_accumulated {R : State → State → Prop}
    (h : ∀ i ∈ parts, ∀ s s', R s s' → ∀ r ∈ find i s, ∃ r' ∈ other i s', R r r') (hs : R s s')
    (hstart : ∀ r r', R r r' → R (r.startAt s) (r'.startAt s')) {r : State}
    (hr : r ∈ Scene.accumulated (parts.map find) s) :
    ∃ r' ∈ Scene.accumulated (parts.map other) s', R r r' := by
  induction parts using List.reverseRecOn generalizing r with
  | nil => simp [Scene.accumulated] at hr
  | append_singleton front i ih =>
    have hfront : ∀ r ∈ Scene.accumulated (front.map find) s,
        ∃ r' ∈ Scene.accumulated (front.map other) s', R r r' :=
      fun r => ih fun j hj => h j (List.mem_append_left _ hj)
    have hlast := h i (List.mem_append_right _ List.mem_cons_self)
    rw [List.map_append, List.map_singleton] at hr ⊢
    simp only [Scene.mem_accumulated_concat_iff] at hr ⊢
    rcases hr with hr | hr | ⟨u, hu, hr⟩
    · obtain ⟨r', hr', hrr⟩ := hfront r hr
      exact ⟨r', .inl hr', hrr⟩
    · obtain ⟨r', hr', hrr⟩ := hlast s s' hs r hr
      exact ⟨r', .inr (.inl hr'), hrr⟩
    · obtain ⟨u', hu', huu⟩ := hfront u hu
      obtain ⟨r', hr', hrr⟩ := hlast _ _ (hstart u u' huu) r hr
      exact ⟨r', .inr (.inr ⟨u', hu', hr'⟩), hrr⟩

theorem accumulated_paired {R : State → State → Prop}
    (h : ∀ i ∈ parts, ∀ s s', R s s' → Paired R (find i s) (other i s')) (hs : R s s')
    (hstart : ∀ r r', R r r' → R (r.startAt s) (r'.startAt s')) :
    Paired R (Scene.accumulated (parts.map find) s) (Scene.accumulated (parts.map other) s') where
  left := fun _ hr =>
    exists_mem_accumulated (fun i hi u u' hu => (h i hi u u' hu).left) hs hstart hr
  right := fun _ hr => exists_mem_accumulated (R := fun u' u => R u u')
    (fun i hi u' u hu => (h i hi u u' hu).right) hs (fun r' r hr => hstart r r' hr) hr

end Folds

end TreeQuery
