import TreeQuery.Proofs.Relabelling
import TreeQuery.Proofs.Flattening
import TreeQuery.Proofs.Renaming

/-! Wrappers: nodes that hand out their children instead of themselves. Such a subject is searched
as if the children of each wrapper stood in its place. -/

namespace TreeQuery

/-- With so many children, the node hands them out in their order, and not itself. -/
def Presented.wraps (p : Presented) (children : Nat) : Bool :=
  p.targets == (List.range children).map fun i => [i]

namespace Tree

section

variable {α β : Type} (presented : α → Presented)

def isWrapper (t : Tree α) : Bool := (presented t.label).wraps t.children.length

mutual

/-- What stands in a node's place once every wrapper has made way for its children. -/
def dissolve : Tree α → List (Tree α)
  | node a ts =>
    if (presented a).wraps ts.length then dissolveAll ts else [node a (dissolveAll ts)]

def dissolveAll : List (Tree α) → List (Tree α)
  | [] => []
  | t :: ts => t.dissolve ++ dissolveAll ts

end

/-- The tree with every wrapper below the root replaced by its children. -/
def withoutWrappers (t : Tree α) : Tree α := node t.label (dissolveAll presented t.children)

/-- The root presents itself, every other node presents itself or is a wrapper, and what a wrapper
holds presents itself. -/
structure WrappedOnce (t : Tree α) : Prop where
  root : (presented t.label).targets = [[]]
  node : ∀ u ∈ t.subtrees, (presented u.label).targets = [[]] ∨ u.isWrapper presented
  held : ∀ u ∈ t.subtrees, u.isWrapper presented →
    ∀ c ∈ u.children, (presented c.label).targets = [[]]

variable {presented} {t u : Tree α}

theorem isWrapper_eq_false (h : (presented t.label).targets = [[]]) :
    t.isWrapper presented = false := by
  rw [isWrapper, Presented.wraps, h, beq_eq_false_iff_ne]
  intro he
  have hmem : [] ∈ (List.range t.children.length).map fun i => [i] := he ▸ List.mem_singleton_self _
  simp at hmem

theorem dissolve_eq (t : Tree α) : t.dissolve presented =
    if t.isWrapper presented then dissolveAll presented t.children
    else [t.withoutWrappers presented] := by
  cases t
  rw [dissolve]
  rfl

theorem dissolveAll_append (ts us : List (Tree α)) :
    dissolveAll presented (ts ++ us) = dissolveAll presented ts ++ dissolveAll presented us := by
  induction ts with
  | nil => rfl
  | cons t ts ih => rw [List.cons_append, dissolveAll, ih, dissolveAll, List.append_assoc]

/-- What is left are the nodes that are no wrappers, in their order. -/
theorem preorders_dissolveAll (ts : List (Tree α)) :
    preorders (dissolveAll presented ts) =
      ((subtreesOf ts).filter fun u => !u.isWrapper presented).map label := by
  induction ts using walk_induction with
  | nil => rfl
  | cons t ts ih =>
    rw [dissolveAll_append, preorders_append] at ih
    rw [dissolveAll, dissolve_eq, preorders_append, subtreesOf_cons, List.filter_cons]
    cases h : t.isWrapper presented with
    | true => simpa [h] using ih
    | false => simp [preorders, withoutWrappers, preorder, ih]

theorem preorder_withoutWrappers (h : t.isWrapper presented = false) :
    (t.withoutWrappers presented).preorder =
      (t.subtrees.filter fun u => !u.isWrapper presented).map label := by
  rw [withoutWrappers, preorder, preorders_dissolveAll, subtrees_eq, List.filter_cons_of_pos,
    List.map_cons]
  simp [h]

theorem isWrapper_map (f : β → α) (t : Tree β) :
    (t.map f).isWrapper presented = t.isWrapper (presented ∘ f) := by
  obtain ⟨a, ts⟩ := t
  rw [isWrapper, isWrapper, map, mapAll_eq_map, children, children, List.length_map]
  rfl

mutual

theorem dissolve_map (f : β → α) : ∀ t : Tree β,
    (t.map f).dissolve presented = (t.dissolve (presented ∘ f)).map (map f)
  | .node a ts => by
    have hlength : (mapAll f ts).length = ts.length := by rw [mapAll_eq_map, List.length_map]
    rw [map, dissolve, dissolve, dissolveAll_map f ts, hlength, Function.comp_apply]
    split
    · rfl
    · rw [List.map_singleton, map, mapAll_eq_map]

theorem dissolveAll_map (f : β → α) : ∀ ts : List (Tree β),
    dissolveAll presented (mapAll f ts) = (dissolveAll (presented ∘ f) ts).map (map f)
  | [] => rfl
  | t :: ts => by
    rw [mapAll, dissolveAll, dissolve_map f t, dissolveAll_map f ts, dissolveAll, List.map_append]

end

theorem withoutWrappers_map (f : β → α) (t : Tree β) :
    (t.map f).withoutWrappers presented = (t.withoutWrappers (presented ∘ f)).map f := by
  obtain ⟨a, ts⟩ := t
  change node (f a) (dissolveAll presented (mapAll f ts)) =
    node (f a) (mapAll f (dissolveAll (presented ∘ f) ts))
  rw [dissolveAll_map, mapAll_eq_map]

theorem WrappedOnce.of_map {f : β → α} {t : Tree β} (h : (t.map f).WrappedOnce presented) :
    t.WrappedOnce (presented ∘ f) := by
  have hlabel (u : Tree β) : (u.map f).label = f u.label := by cases u; rfl
  have hmem {u : Tree β} (hu : u ∈ t.subtrees) : u.map f ∈ (t.map f).subtrees := by
    rw [subtrees_map]
    exact List.mem_map_of_mem hu
  constructor
  · have hroot := h.root
    rwa [hlabel] at hroot
  · intro u hu
    have hnode := h.node _ (hmem hu)
    rwa [hlabel, isWrapper_map] at hnode
  · intro u hu hwrapper c hc
    have hchild : c.map f ∈ (u.map f).children := by
      obtain ⟨a, ts⟩ := u
      rw [map, mapAll_eq_map]
      exact List.mem_map_of_mem hc
    have hheld := h.held _ (hmem hu) (by rwa [isWrapper_map]) _ hchild
    rwa [hlabel] at hheld

theorem WrappedOnce.of_mem_subtrees (h : t.WrappedOnce presented) (hu : u ∈ t.subtrees)
    (hroot : (presented u.label).targets = [[]]) : u.WrappedOnce presented where
  root := hroot
  node := fun v hv => h.node v (mem_subtrees_trans hv hu)
  held := fun v hv => h.held v (mem_subtrees_trans hv hu)

end

section

variable {t u : Tree Numbered}

theorem filterMap_getElem?_range {α : Type} (l : List α) :
    (List.range l.length).filterMap (l[·]?) = l := by
  induction l with
  | nil => rfl
  | cons a l ih =>
    rw [List.length_cons, List.range_succ_eq_map, List.filterMap_cons_some (by rfl),
      List.filterMap_map]
    exact congrArg (a :: ·) ih

theorem targets_eq_children (h : t.isWrapper Prod.snd) : t.targets = t.children := by
  rw [isWrapper, Presented.wraps, beq_iff_eq] at h
  have hat (i : Nat) : t.at? [i] = t.children[i]? := by simp [at?]
  rw [targets, h, List.filterMap_map]
  simp only [Function.comp_def, hat]
  exact filterMap_getElem?_range t.children

theorem dissolveAll_eq_map {ts : List (Tree Numbered)}
    (h : ∀ t ∈ ts, t.label.2.targets = [[]]) :
    dissolveAll Prod.snd ts = ts.map (withoutWrappers Prod.snd) := by
  induction ts with
  | nil => rfl
  | cons t ts ih =>
    obtain ⟨ht, hts⟩ := List.forall_mem_cons.mp h
    rw [dissolveAll, dissolve_eq, isWrapper_eq_false ht, ih hts]
    rfl

/-- What takes the place of the children of a node is what is searched there. -/
theorem dissolveAll_eq_map_targets {ts : List (Tree Numbered)}
    (hnode : ∀ t ∈ ts, t.label.2.targets = [[]] ∨ t.isWrapper Prod.snd)
    (hheld : ∀ t ∈ ts, t.isWrapper Prod.snd → ∀ c ∈ t.children, c.label.2.targets = [[]]) :
    dissolveAll Prod.snd ts = (ts.flatMap targets).map (withoutWrappers Prod.snd) := by
  induction ts with
  | nil => rfl
  | cons t ts ih =>
    obtain ⟨ht, hts⟩ := List.forall_mem_cons.mp hnode
    obtain ⟨hc, hcs⟩ := List.forall_mem_cons.mp hheld
    rw [dissolveAll, dissolve_eq, ih hts hcs, List.flatMap_cons, List.map_append]
    congr 1
    rcases ht with hself | hwrapper
    · rw [isWrapper_eq_false hself, targets_eq_self hself]
      rfl
    · rw [if_pos hwrapper, targets_eq_children hwrapper, dissolveAll_eq_map (hc hwrapper)]

theorem WrappedOnce.of_mem_linkedChildren (h : t.WrappedOnce Prod.snd)
    (hu : u ∈ t.linkedChildren) : u.WrappedOnce Prod.snd := by
  obtain ⟨c, hc, hu⟩ := List.mem_flatMap.mp hu
  have hmem : c ∈ t.subtrees := mem_subtrees_of_mem_children (self_mem_subtrees c) hc
  rcases h.node c hmem with hself | hwrapper
  · rw [targets_eq_self hself, List.mem_singleton] at hu
    exact hu ▸ h.of_mem_subtrees hmem hself
  · rw [targets_eq_children hwrapper] at hu
    have hin := mem_subtrees_trans (mem_subtrees_of_mem_children (self_mem_subtrees u) hu) hmem
    exact h.of_mem_subtrees hin (h.held c hmem hwrapper u hu)

theorem WrappedOnce.unfold_eq (h : t.WrappedOnce Prod.snd) :
    t.unfold = (t.withoutWrappers Prod.snd).map Prod.fst := by
  induction t using linked_induction with
  | node t ih =>
    have hmem {c : Tree Numbered} (hc : c ∈ t.children) : c ∈ t.subtrees :=
      mem_subtrees_of_mem_children (self_mem_subtrees c) hc
    have hchildren := dissolveAll_eq_map_targets (fun c hc => h.node c (hmem hc))
      fun c hc => h.held c (hmem hc)
    rw [Tree.unfold_eq, withoutWrappers, hchildren, map, mapAll_eq_map, List.map_map]
    exact congrArg _ (List.map_congr_left fun c hc => ih c hc (h.of_mem_linkedChildren hc))

end

section

variable (p : Tree Presented)

/-- The numbers of the nodes that are no wrappers, in their order. -/
def standing : List Nat :=
  ((p.number 0).subtrees.filter fun u => !u.isWrapper Prod.snd).map fun u => u.label.1

/-- Which node of the whole tree each node of the tree without wrappers is. No node has a number as
large as those beyond its end. -/
def original (k : Nat) : Nat := p.standing[k]?.getD (p.size + k)

variable {p}

theorem map_number_subtrees :
    ((p.number 0).subtrees.map fun u => u.label.1) = List.range p.size := by
  have hnumbers := numbers_preorders 0 [p]
  rw [← map_label_subtreesOf, numberAll, numberAll, subtreesOf_singleton, List.map_map] at hnumbers
  rw [List.range_eq_range']
  simpa [sizes, Function.comp_def] using hnumbers

theorem standing_sublist : p.standing.Sublist (List.range p.size) := by
  rw [← map_number_subtrees]
  exact List.filter_sublist.map _

theorem lt_size_of_mem_standing {n : Nat} (h : n ∈ p.standing) : n < p.size :=
  List.mem_range.mp (standing_sublist.subset h)

theorem original_injective : Function.Injective p.original := by
  have hnodup : p.standing.Nodup := List.nodup_range.sublist standing_sublist
  intro k l h
  rw [original, original] at h
  cases hk : p.standing[k]? with
  | none =>
    cases hl : p.standing[l]? with
    | none =>
      rw [hk, hl, Option.getD_none, Option.getD_none] at h
      omega
    | some n =>
      have hlt := lt_size_of_mem_standing (List.mem_of_getElem? hl)
      rw [hk, hl, Option.getD_none, Option.getD_some] at h
      omega
  | some m =>
    cases hl : p.standing[l]? with
    | none =>
      have hlt := lt_size_of_mem_standing (List.mem_of_getElem? hk)
      rw [hk, hl, Option.getD_none, Option.getD_some] at h
      omega
    | some n =>
      obtain ⟨hlt, _⟩ := List.getElem?_eq_some_iff.mp hk
      rw [hk, hl, Option.getD_some, Option.getD_some] at h
      exact (List.getElem?_inj hlt hnodup).mp (by rw [hk, hl, h])

theorem WrappedOnce.number (h : p.WrappedOnce id) : (p.number 0).WrappedOnce Prod.snd := by
  rw [← map_snd_number 0 p] at h
  exact h.of_map

theorem WrappedOnce.map_fst_preorder (h : p.WrappedOnce id) :
    (((p.number 0).withoutWrappers Prod.snd).preorder.map Prod.fst) = p.standing := by
  rw [preorder_withoutWrappers (isWrapper_eq_false h.number.root), List.map_map]
  rfl

theorem WrappedOnce.original_zero (h : p.WrappedOnce id) : p.original 0 = 0 := by
  have hroot := isWrapper_eq_false h.number.root
  rw [original, standing, subtrees_eq, List.filter_cons_of_pos (by simp [hroot])]
  cases p
  rfl

theorem withoutWrappers_number :
    ((p.number 0).withoutWrappers Prod.snd).map Prod.snd = p.withoutWrappers id := by
  have hmap : ((p.number 0).map Prod.snd).withoutWrappers id = _ :=
    withoutWrappers_map Prod.snd (p.number 0)
  rw [map_snd_number] at hmap
  exact hmap.symm

/-- The tree that is searched is the one without wrappers, each node under its own number. -/
theorem WrappedOnce.unfold_number (h : p.WrappedOnce id) :
    (p.number 0).unfold = (p.withoutWrappers id).places.map p.original := by
  rw [h.number.unfold_eq, ← withoutWrappers_number, places_map]
  apply map_eq_map_places
  intro k a hk
  rw [original, ← h.map_fst_preorder, List.getElem?_map, hk]
  rfl

end

end Tree

namespace Subject

variable {p : Tree Presented}

theorem element_ofTree (k : Nat) :
    (ofTree p).element k = (p.preorder[k]?.map Presented.element).getD default := by
  change ((p.number 0).subtrees.toArray[k]?.map fun t => t.label.2.element).getD default = _
  rw [List.getElem?_toArray, Tree.getElem?_subtrees_number, ← Tree.map_label_subtrees,
    List.getElem?_map]
  cases p.subtrees[k]? with
  | none => rfl
  | some u => cases u; rfl

theorem element_original (h : p.WrappedOnce id) (k : Nat) :
    (ofTree p).element (p.original k) = (ofTree (p.withoutWrappers id)).element k := by
  rw [element_ofTree, element_ofTree, ← Tree.withoutWrappers_number, Tree.preorder_map,
    List.getElem?_map, Tree.original, ← h.map_fst_preorder, List.getElem?_map]
  cases hk : ((p.number 0).withoutWrappers Prod.snd).preorder[k]? with
  | none =>
    have hend : p.preorder[p.size + k]? = none := by
      rw [List.getElem?_eq_none_iff, Tree.length_preorder]
      omega
    rw [Option.map_none, Option.getD_none, hend]
    rfl
  | some a =>
    obtain ⟨n, x⟩ := a
    have hstays := List.mem_of_getElem? hk
    rw [Tree.preorder_withoutWrappers (Tree.isWrapper_eq_false h.number.root)] at hstays
    have hmem : (n, x) ∈ (p.number 0).preorder := by
      rw [← Tree.map_label_subtrees]
      exact (List.filter_sublist.map Tree.label).subset hstays
    rw [Option.map_some, Option.getD_some, Tree.getElem?_preorder_of_mem_number hmem]
    rfl

/-- Without wrappers every node presents itself. -/
theorem ofTree_withoutWrappers (h : p.WrappedOnce id) :
    ofTree (p.withoutWrappers id) = ofNode ((p.withoutWrappers id).map Presented.element) := by
  have hself : ∀ x ∈ (p.withoutWrappers id).preorder, (present ∘ Presented.element) x = id x := by
    intro x hx
    rw [Tree.preorder_withoutWrappers (Tree.isWrapper_eq_false h.root)] at hx
    obtain ⟨u, hu, rfl⟩ := List.mem_map.mp hx
    obtain ⟨hu, hstays⟩ := List.mem_filter.mp hu
    have htargets : u.label.targets = [[]] := (h.node u hu).resolve_right (by simpa using hstays)
    rw [Function.comp_apply, present, ← htargets]
    rfl
  have hmap :
      ((p.withoutWrappers id).map Presented.element).map present = p.withoutWrappers id := by
    rw [Tree.map_map, Tree.map_congr hself, Tree.map_id]
  rw [ofNode]
  exact congrArg ofTree hmap.symm

theorem unfold_number_withoutWrappers (h : p.WrappedOnce id) :
    ((p.withoutWrappers id).number 0).unfold = (p.withoutWrappers id).places := by
  have hroot : (ofNode ((p.withoutWrappers id).map Presented.element)).tree? 0 =
      some ((p.withoutWrappers id).number 0).unfold := by
    rw [← ofTree_withoutWrappers h, tree?_root]
  rw [tree?_ofNode, Tree.places_map] at hroot
  exact (Option.some.inj hroot).symm

end Subject

namespace Matcher

theorem acceptance_original {p : Tree Presented} (h : p.WrappedOnce id) (f : Filter) (n : Nat)
    (b : Bindings) :
    NodeKind.plain.acceptance none (.ofTree p) f (p.original n) (b.rename p.original) =
      NodeKind.plain.acceptance none (.ofTree (p.withoutWrappers id)) f n b := by
  simp only [NodeKind.acceptance, NodeKind.plain, NodeKind.ofTest, NodeKind.acceptsBy,
    NodeKind.ownValue, Subject.type, Subject.property?, Subject.element_original h]

/-- Wrappers are transparent. Every match on a subject with wrappers is the match at the same place
in the order on the subject in which the children of each wrapper stand in its place, bound to the
same nodes under the numbers that they have there; with the cache on or off on either side. -/
theorem search_withoutWrappers {p : Tree Presented} (h : p.WrappedOnce id)
    (config config' : MatchConfig) (traced traced' : Bool) (q : Query) :
    let m : Matcher := { config, traced }
    let m' : Matcher := { config := config', traced := traced' }
    (m.search q (.ofTree p)).items =
      (m'.search q (.ofTree (p.withoutWrappers id))).items.map (·.rename p.original) := by
  intro m m'
  have hrenames : (m.scene (.ofTree p) (.ofTree (p.number 0).unfold)).Renames p.original
      (m'.scene (.ofTree (p.withoutWrappers id))
        (.ofTree ((p.withoutWrappers id).number 0).unfold)) :=
    { tree_eq := by
        rw [Subject.unfold_number_withoutWrappers h, h.unfold_number, LinkedTree.ofTree_map]
        rfl
      injective := Tree.original_injective
      root_eq := h.original_zero
      acceptance_eq := acceptance_original h }
  have htree : LinkedTree.ofTree (p.number 0).unfold =
      (LinkedTree.ofTree ((p.withoutWrappers id).number 0).unfold).relabel p.original :=
    hrenames.tree_eq
  have hbindings (rs : List State) : (rs.map (·.rename p.original)).map State.bindings =
      (rs.map State.bindings).map (·.rename p.original) := by
    rw [List.map_map, List.map_map]
    rfl
  have hroot : (p.withoutWrappers id).label.targets = [[]] := h.root
  rw [m.items_search_of_root q h.root, m'.items_search_of_root q hroot, ← eraseDups_map fun _ _ =>
    Bindings.rename_inj Tree.original_injective, ← hbindings, ← hrenames.results,
    ← State.initial_relabel, ← htree]

/-- Two sections stand in the chapter, one of them empty, and one in front of it. -/
theorem search_withoutWrappers_sections :
    let own (type : String) (ts : List (Tree Presented)) : Tree Presented :=
      .node { element := { type, properties := .empty } } ts
    let wrap (ts : List (Tree Presented)) : Tree Presented :=
      .node ⟨{ type := "section", properties := .empty }, (List.range ts.length).map ([·])⟩ ts
    let p : Tree Presented := own "document"
      [wrap [own "paragraph" [], own "paragraph" []],
        own "chapter" [wrap [], wrap [own "note" []]], own "paragraph" []]
    let q : Query := .container .ordered
      [.leaf { type := some "paragraph", direct := true, capture := some "p" },
        .container .exact
          [.single { type := some "chapter" } (.leaf { direct := true, capture := some "n" }),
            .leaf { capture := some "last" }]]
    let m : Matcher := {}
    let m' : Matcher := { config := { replayCache := false } }
    let b : Bindings := .ofList [("last", 5), ("n", 4), ("p", 2)]
    p.WrappedOnce id ∧ b ∈ (m'.search q (.ofTree (p.withoutWrappers id))).items ∧
      b.rename p.original = .ofList [("last", 8), ("n", 7), ("p", 3)] ∧
      b.rename p.original ∈ (m.search q (.ofTree p)).items := by
  intro own wrap p q m m' b
  have hwrapped : p.WrappedOnce id :=
    ⟨by decide, by decide +kernel, by decide +kernel⟩
  have hroot : (p.withoutWrappers id).label.targets = [[]] := rfl
  have hb : b ∈ (m'.search q (.ofTree (p.withoutWrappers id))).items := by
    rw [items_search_of_root _ _ hroot, Subject.unfold_number_withoutWrappers hwrapped,
      List.mem_eraseDups]
    refine List.mem_map.mpr ⟨⟨0, none, b⟩, ?_, rfl⟩
    rw [Scene.results_eq_find]
    decide +kernel
  refine ⟨hwrapped, hb, by decide +kernel, ?_⟩
  rw [search_withoutWrappers hwrapped m.config m'.config m.traced m'.traced q]
  exact List.mem_map_of_mem hb

end Matcher

end TreeQuery
