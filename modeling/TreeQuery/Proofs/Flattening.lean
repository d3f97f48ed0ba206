import TreeQuery.Arena
import TreeQuery.Proofs.Relabelling

/-! The arena that the loop over the stack fills is the pre-order of the subject, with each child
replaced by its targets, and it shows the linked tree that is searched, if there are ids for all its
nodes. The loop is followed along the layout of that tree: after each round the arena shows the
links laid out so far, and the stack what still waits there. -/

namespace TreeQuery

namespace Tree

/-- A node, then in turn each target of each of its children, with all that comes with it. -/
def linkedPreorder (t : Tree Numbered) : List (Tree Numbered) :=
  t :: t.linkedChildren.attach.flatMap fun c => c.1.linkedPreorder
termination_by t.size
decreasing_by exact size_lt_of_mem_linkedChildren c.2

theorem linkedPreorder_eq (t : Tree Numbered) :
    t.linkedPreorder = t :: t.linkedChildren.flatMap linkedPreorder := by
  rw [linkedPreorder]
  simp

/-- The tree of which this is the pre-order. -/
def linked (t : Tree Numbered) : Tree (Tree Numbered) :=
  .node t (t.linkedChildren.attach.map fun c => c.1.linked)
termination_by t.size
decreasing_by exact size_lt_of_mem_linkedChildren c.2

theorem linked_eq (t : Tree Numbered) : t.linked = .node t (t.linkedChildren.map linked) := by
  rw [linked]
  simp

theorem label_linked (t : Tree Numbered) : t.linked.label = t := by rw [linked_eq, label]

theorem children_linked (t : Tree Numbered) : t.linked.children = t.linkedChildren.map linked := by
  rw [linked_eq, children]

theorem children_unfold (t : Tree Numbered) : t.unfold.children = t.linkedChildren.map unfold := by
  rw [unfold_eq, children]

@[elab_as_elim]
theorem linked_induction {motive : Tree Numbered → Prop}
    (node : ∀ t, (∀ u ∈ t.linkedChildren, motive u) → motive t) (t : Tree Numbered) : motive t :=
  node t fun u hu => have := size_lt_of_mem_linkedChildren hu; linked_induction node u
termination_by t.size

theorem map_linked (t : Tree Numbered) : (t.linked.map fun u => u.label.1) = t.unfold := by
  induction t using linked_induction with
  | node t ih =>
    rw [linked_eq, unfold_eq, map, mapAll_eq_map, List.map_map]
    congr 1
    exact List.map_congr_left ih

theorem size_linked (t : Tree Numbered) : t.linked.size = t.unfold.size := by
  rw [← map_linked, size_map]

theorem subtreesOf_eq_flatMap {α : Type} (ts : List (Tree α)) :
    subtreesOf ts = ts.flatMap subtrees := by
  induction ts with
  | nil => rfl
  | cons t ts ih => rw [subtreesOf, ih, List.flatMap_cons]

theorem subtrees_linked (t : Tree Numbered) : t.linked.subtrees = t.linkedPreorder.map linked := by
  induction t using linked_induction with
  | node t ih =>
    rw [subtrees_eq, children_linked, subtreesOf_eq_flatMap, List.flatMap_map, linkedPreorder_eq,
      List.map_cons, List.map_flatMap, List.flatMap_congr ih]

theorem length_linkedPreorder (t : Tree Numbered) : t.linkedPreorder.length = t.unfold.size := by
  rw [← size_linked, ← length_subtrees, subtrees_linked, List.length_map]

/-- A chain in which every node presents itself twice. -/
def doubled : Nat → Tree Presented
  | 0 => .node ⟨⟨"a", .empty⟩, [[], []]⟩ []
  | n + 1 => .node ⟨⟨"a", .empty⟩, [[], []]⟩ [doubled n]

theorem linkedChildren_doubled (n start : Nat) :
    ((doubled (n + 1)).number start).linkedChildren =
      [(doubled n).number (start + 1), (doubled n).number (start + 1)] := by
  have htargets : ((doubled n).number (start + 1)).targets =
      [(doubled n).number (start + 1), (doubled n).number (start + 1)] := by
    cases n <;> rfl
  rw [linkedChildren, doubled, number, children, numberAll, numberAll, List.flatMap_cons, htargets,
    List.flatMap_nil, List.append_nil]

/-- Each node of the chain makes twice as many linked nodes. -/
theorem size_unfold_doubled (n start : Nat) :
    ((doubled n).number start).unfold.size + 1 = Nat.pow 2 (n + 1) := by
  induction n generalizing start with
  | zero =>
    rw [unfold_eq]
    rfl
  | succ n ih =>
    have h := ih (start + 1)
    rw [unfold_eq, linkedChildren_doubled, size, List.map_cons, List.map_cons, List.map_nil, sizes,
      sizes, sizes, Nat.pow_eq, Nat.pow_succ, ← Nat.pow_eq, ← h]
    omega

theorem capacity_lt_size_doubled (start : Nat) :
    LinkedTree.capacity < ((doubled 32).number start).unfold.size := by
  have h := size_unfold_doubled 32 start
  have hpow : Nat.pow 2 (32 + 1) = 8589934592 := by decide
  rw [LinkedTree.capacity]
  omega

section Places

variable {t u : Tree Numbered} {id : Nat}

theorem subtrees_unfold_of_linkedPreorder (h : t.linkedPreorder[id]? = some u) :
    t.unfold.subtrees[id]? = some u.unfold := by
  rw [← map_linked, subtrees_map, subtrees_linked, List.map_map, List.getElem?_map, h,
    Option.map_some, Function.comp_apply, map_linked]

/-- At the places of a node's children are the targets of the node's own children. -/
theorem linkedPreorder_children (h : t.linkedPreorder[id]? = some u) :
    (starts (id + 1) u.unfold.children).map (t.linkedPreorder[·]?) =
      u.linkedChildren.map some := by
  have hstarts : starts (id + 1) u.unfold.children = starts (id + 1) u.linked.children := by
    apply starts_eq_of_sizes
    rw [children_unfold, children_linked, List.map_map, List.map_map]
    exact List.map_congr_left fun v _ => (size_linked v).symm
  have hu : t.linked.subtrees[id]? = some u.linked := by
    rw [subtrees_linked, List.getElem?_map, h, Option.map_some]
  apply List.ext_getElem?
  intro i
  rw [hstarts, List.getElem?_map, List.getElem?_map, getElem?_starts, children_linked,
    List.getElem?_map]
  cases hv : u.linkedChildren[i]? with
  | none => rfl
  | some v =>
    have hchild := getElem?_subtrees_child (v := v.linked) (i := i) hu (by
      rw [children_linked, List.getElem?_map, hv, Option.map_some])
    rw [subtrees_linked, List.getElem?_map, children_linked, Option.map_eq_some_iff] at hchild
    obtain ⟨w, hw, hwv⟩ := hchild
    obtain rfl : w = v := by rw [← label_linked w, hwv, label_linked]
    simp [hw]

end Places

end Tree

namespace LinkedTree

theorem idsBelow_push (links : Array Link) (l : Link) (p : Nat) :
    idsBelow (links.push l).toList.zipIdx p =
      idsBelow links.toList.zipIdx p ++
        if l.ancestors.head? = some p then [links.size] else [] := by
  rw [idsBelow, Array.toList_push, List.zipIdx_append, List.filter_append, List.map_append]
  congr 1
  by_cases h : l.ancestors.head? = some p <;> simp [h]

theorem isSome_build? (t : Tree Nat) : (build? t).isSome ↔ t.size ≤ capacity := by
  simp [build?, size_ofTree]

theorem eq_of_build?_eq_some {t : Tree Nat} {tree : LinkedTree} (h : build? t = some tree) :
    tree = ofTree t := by
  rw [build?] at h
  split at h
  · exact (Option.some.inj h).symm
  · cases h

/-- An id and all below it are the stretch that begins there. -/
theorem reflTransGen_parent?_iff {t : Tree Nat} {a d : Nat} (ha : a < t.size) :
    Relation.ReflTransGen (fun p c => (ofTree t).parent? c = some p) a d ↔
      a ≤ d ∧ d < t.stop a := by
  have hself := lt_stop_self ha
  constructor
  · intro h
    induction h with
    | refl => omega
    | @tail p c _ hc ih =>
      rcases Nat.eq_or_lt_of_le ih.1 with rfl | hlt
      · have := mem_ancestors_iff_lt_stop.mp (parent?_mem_ancestors hc)
        omega
      · have hp := mem_ancestors_iff_lt_stop.mpr ⟨hlt, ih.2⟩
        have := mem_ancestors_iff_lt_stop.mp (mem_ancestors_trans hp (parent?_mem_ancestors hc))
        omega
  · rintro ⟨hle, hlt⟩
    induction d using parent_induction t with
    | root d hd =>
      rcases Nat.eq_or_lt_of_le hle with rfl | hless
      · exact .refl
      · have hmem := mem_ancestors_iff_lt_stop.mpr ⟨hless, hlt⟩
        rw [ancestors_of_parent?_eq_none hd] at hmem
        simp at hmem
    | child d p hp ih =>
      rcases Nat.eq_or_lt_of_le hle with rfl | hless
      · exact .refl
      · rcases (mem_ancestors_iff hp).mp (mem_ancestors_iff_lt_stop.mpr ⟨hless, hlt⟩) with rfl | h
        · exact .single hp
        · have := mem_ancestors_iff_lt_stop.mp h
          exact (ih (by omega) this.2).tail hp

end LinkedTree

namespace Arena

open LinkedTree (idsBelow)

/-- The arena shows the links, each with the children that have been laid out. -/
structure Shows (arena : Arena) (links : Array Link) : Prop where
  size_eq : arena.entries.size = links.size
  entry : ∀ (id : Nat) (l : Link), links[id]? = some l → ∃ e, arena.entries[id]? = some e ∧
    e.node.label.1 = l.node ∧ e.parent = l.ancestors.head? ∧ e.path = l.path ∧
    e.children.toList = idsBelow links.toList.zipIdx id
  parent_lt : ∀ (id : Nat) (l : Link), links[id]? = some l →
    ∀ p, l.ancestors.head? = some p → p < id

/-- What waits, as the layout of the linked tree has it. -/
def Waiting.pending (links : Array Link) (w : Waiting) : LinkedTree.Pending :=
  match w.parent with
  | none => ⟨w.node.unfold, [], #[]⟩
  | some p =>
    ⟨w.node.unfold, p :: ((links[p]?.map Link.ancestors).getD []),
      ((links[p]?.map Link.path).getD #[]).push w.index⟩

/-- Only what has a place can be a parent. -/
def Waiting.Ready (links : Array Link) (w : Waiting) : Prop :=
  ∀ p, w.parent = some p → p < links.size

variable {arena next : Arena} {links : Array Link} {w : Waiting} {l : Link}

theorem Waiting.head?_ancestors_pending (links : Array Link) (w : Waiting) :
    (w.pending links).ancestors.head? = w.parent := by
  rw [pending]
  cases w.parent <;> rfl

theorem Waiting.tree_pending (links : Array Link) (w : Waiting) :
    (w.pending links).tree = w.node.unfold := by
  rw [pending]
  cases w.parent <;> rfl

theorem Waiting.pending_push (hw : w.Ready links) (l : Link) :
    w.pending (links.push l) = w.pending links := by
  rw [pending, pending]
  cases hp : w.parent with
  | none => rfl
  | some p => simp only [Array.getElem?_push, if_neg (Nat.ne_of_lt (hw p hp))]

/-- The targets of the node that has just been laid out wait just as its children do. -/
theorem Waiting.pending_below (links : Array Link) (w : Waiting) :
    (w.below links.size).map (·.pending (links.push (w.pending links).link)) =
      (w.pending links).below links.size := by
  apply List.ext_getElem?
  intro i
  rw [below, LinkedTree.Pending.below, List.getElem?_map, List.getElem?_mapIdx,
    List.getElem?_mapIdx, tree_pending, Tree.unfold_eq, Tree.children, List.getElem?_map]
  cases w.node.linkedChildren[i]? with
  | none => rfl
  | some t => simp [pending, LinkedTree.Pending.link]

theorem Waiting.flatMap_below (w : Waiting) (id : Nat) :
    ((w.below id).flatMap fun u => u.node.linkedPreorder) =
      w.node.linkedChildren.flatMap Tree.linkedPreorder := by
  have hnodes : (w.below id).map Waiting.node = w.node.linkedChildren := by
    apply List.ext_getElem <;> simp [below]
  rw [← hnodes, List.flatMap_map]

theorem Waiting.ready_below {u : Waiting} (h : u ∈ w.below links.size) :
    u.Ready (links.push l) := by
  obtain ⟨i, t, rfl⟩ : ∃ i t, (⟨t, some links.size, i⟩ : Waiting) = u := by
    obtain ⟨i, hi, hu⟩ := List.mem_mapIdx.mp h
    exact ⟨i, _, hu⟩
  intro p hp
  obtain rfl := Option.some.inj hp
  rw [Array.size_push]
  omega

theorem Waiting.Ready.push (hw : w.Ready links) (l : Link) : w.Ready (links.push l) := by
  intro p hp
  have := hw p hp
  rw [Array.size_push]
  omega

/-- What one more link changes: its own entry, and the children of its parent. -/
theorem Shows.push (h : Shows arena links) (hl : ∀ p, l.ancestors.head? = some p → p < links.size)
    (hsize : next.entries.size = links.size + 1)
    (hnew : ∃ node, node.label.1 = l.node ∧
      next.entries[links.size]? = some ⟨node, l.ancestors.head?, #[], l.path⟩)
    (hold : ∀ (id : Nat) (e : Entry), arena.entries[id]? = some e → ∃ children,
      next.entries[id]? = some { e with children } ∧ children.toList = e.children.toList ++
        if l.ancestors.head? = some id then [links.size] else []) :
    Shows next (links.push l) where
  size_eq := by rw [hsize, Array.size_push]
  entry := by
    intro id m hm
    rw [Array.getElem?_push] at hm
    rw [LinkedTree.idsBelow_push]
    by_cases hid : id = links.size
    · obtain rfl : l = m := by simpa [hid] using hm
      obtain ⟨node, hnode, hnext⟩ := hnew
      refine ⟨_, hid ▸ hnext, hnode, rfl, rfl, ?_⟩
      have hnone : idsBelow links.toList.zipIdx id = [] := by
        refine List.eq_nil_iff_forall_not_mem.mpr fun c hc => ?_
        obtain ⟨m, hm, hparent⟩ := LinkedTree.mem_idsBelow.mp hc
        have := h.parent_lt c m hm _ hparent
        have := (Array.getElem?_eq_some_iff.mp hm).1
        omega
      rw [hnone, if_neg fun hparent => Nat.lt_irrefl _ (hid ▸ hl _ hparent)]
      rfl
    · rw [if_neg hid] at hm
      obtain ⟨e, he, hnode, hparent, hpath, hchildren⟩ := h.entry id m hm
      obtain ⟨children, hnext, happend⟩ := hold id e he
      exact ⟨_, hnext, hnode, hparent, hpath, by rw [happend, hchildren]⟩
  parent_lt := by
    intro id m hm p hp
    rw [Array.getElem?_push] at hm
    by_cases hid : id = links.size
    · obtain rfl : l = m := by simpa [hid] using hm
      exact hid ▸ hl p hp
    · rw [if_neg hid] at hm
      exact h.parent_lt id m hm p hp

theorem map_node_modify (entries : Array Entry) (p : Nat) {f : Entry → Entry}
    (hf : ∀ e, (f e).node = e.node) :
    (entries.modify p f).toList.map Entry.node = entries.toList.map Entry.node := by
  apply List.ext_getElem?
  intro i
  rw [List.getElem?_map, List.getElem?_map, Array.getElem?_toList, Array.getElem?_toList,
    Array.getElem?_modify]
  split
  · simp [hf, Function.comp_def]
  · rfl

section Place

variable (hroom : arena.entries.size < LinkedTree.capacity)

include hroom

theorem place_root (hp : w.parent = none) :
    arena.place w = .ok ⟨arena.entries.push ⟨w.node, none, #[], #[]⟩⟩ := by
  rw [place, if_pos hroom, hp]

theorem place_child {p : Nat} {above : Entry} (hp : w.parent = some p)
    (habove : arena.entries[p]? = some above) :
    arena.place w = .ok
      ⟨(arena.entries.push ⟨w.node, some p, #[], above.path.push w.index⟩).modify p
        fun e => { e with children := e.children.push arena.entries.size }⟩ := by
  rw [place, if_pos hroom, hp]
  dsimp only
  rw [habove]

end Place

/-- A round gives the next link its place. -/
theorem Shows.place (h : Shows arena links) (hw : w.Ready links)
    (hroom : links.size < LinkedTree.capacity) :
    ∃ next, arena.place w = .ok next ∧ Shows next (links.push (w.pending links).link) ∧
      next.entries.toList.map Entry.node = arena.entries.toList.map Entry.node ++ [w.node] := by
  have hhead : (w.pending links).link.ancestors.head? = w.parent := w.head?_ancestors_pending links
  have hlabel : w.node.label.1 = (w.pending links).link.node := by
    rw [LinkedTree.Pending.link, Waiting.tree_pending, Tree.unfold_eq]
    rfl
  have hready : ∀ p, (w.pending links).link.ancestors.head? = some p → p < links.size :=
    fun p hp => hw p (hhead ▸ hp)
  have hsize := h.size_eq
  rw [← hsize] at hroom
  cases hp : w.parent with
  | none =>
    have hpath : (w.pending links).link.path = #[] := by
      simp [LinkedTree.Pending.link, Waiting.pending, hp]
    refine ⟨_, place_root hroom hp, h.push hready ?_ ⟨w.node, hlabel, ?_⟩ ?_, ?_⟩
    · rw [Array.size_push, hsize]
    · rw [hhead, hp, hpath, ← hsize, Array.getElem?_push_size]
    · intro id e he
      have hid := (Array.getElem?_eq_some_iff.mp he).1
      refine ⟨e.children, ?_, ?_⟩
      · rw [Array.getElem?_push, if_neg (Nat.ne_of_lt hid), he]
      · simp [hhead, hp]
    · simp
  | some p =>
    have hlt := hw p hp
    obtain ⟨above, habove, -, -, hpath, -⟩ := h.entry p links[p] (Array.getElem?_eq_getElem hlt)
    have hpath : (w.pending links).link.path = above.path.push w.index := by
      simp [LinkedTree.Pending.link, Waiting.pending, hp, hpath, Array.getElem?_eq_getElem hlt]
    refine ⟨_, place_child hroom hp habove, h.push hready ?_ ⟨w.node, hlabel, ?_⟩ ?_, ?_⟩
    · rw [Array.size_modify, Array.size_push, hsize]
    · rw [hhead, hp, hpath, ← hsize, Array.getElem?_modify, if_neg (by omega),
        Array.getElem?_push_size]
    · intro id e he
      have hid := (Array.getElem?_eq_some_iff.mp he).1
      rw [Array.getElem?_modify, Array.getElem?_push, if_neg (Nat.ne_of_lt hid), he, hhead, hp]
      by_cases hpid : p = id
      · exact ⟨e.children.push arena.entries.size, by simp [hpid], by simp [hpid, hsize]⟩
      · exact ⟨e.children, by simp [hpid], by simp [hpid]⟩
    · refine (map_node_modify _ p ?_).trans ?_
      · exact fun _ => rfl
      · simp

/-- What waits, the top of the stack first. -/
def waiting (stack : Array Waiting) : List Waiting := stack.toList.reverse

theorem waiting_push (rest : Array Waiting) (w : Waiting) :
    waiting (rest.push w) = w :: waiting rest := by
  simp [waiting]

theorem waiting_append (rest : Array Waiting) (ws : List Waiting) :
    waiting (rest ++ ws.reverse) = ws ++ waiting rest := by
  simp [waiting]

theorem ready_next {ws : List Waiting} (hws : ∀ u ∈ ws, u.Ready links) (w : Waiting) (l : Link) :
    ∀ u ∈ w.below links.size ++ ws, u.Ready (links.push l) := by
  intro u hu
  rcases List.mem_append.mp hu with hu | hu
  · exact Waiting.ready_below hu
  · exact (hws u hu).push l

/-- When a node has been laid out, its targets wait in front of the others, as its children do. -/
theorem pending_next {ws : List Waiting} (hws : ∀ u ∈ ws, u.Ready links) (w : Waiting) :
    (w.below links.size ++ ws).map (·.pending (links.push (w.pending links).link)) =
      (w.pending links).below links.size ++ ws.map (·.pending links) := by
  rw [List.map_append, Waiting.pending_below]
  congr 1
  exact List.map_congr_left fun u hu => Waiting.pending_push (hws u hu) _

/-- While there are ids left, a round gives the next link its place, and its children wait then. -/
theorem Shows.round (h : Shows arena links) {rest : Array Waiting}
    (hready : ∀ u ∈ waiting (rest.push w), u.Ready links)
    (hroom : links.size < LinkedTree.capacity) :
    ∃ (next : Arena) (stack : Array Waiting),
      (∀ rounds, Arena.fill (rounds + 1) arena (rest.push w) = Arena.fill rounds next stack) ∧
      Shows next (links.push (w.pending links).link) ∧
      next.entries.toList.map Entry.node = arena.entries.toList.map Entry.node ++ [w.node] ∧
      waiting stack = w.below links.size ++ waiting rest := by
  rw [waiting_push] at hready
  obtain ⟨hw, _⟩ := List.forall_mem_cons.mp hready
  obtain ⟨next, hnext, hshows, hnodes⟩ := h.place hw hroom
  refine ⟨next, rest ++ (w.below links.size).reverse, fun rounds => ?_, hshows, hnodes,
    waiting_append _ _⟩
  rw [Arena.fill, Array.back?_push]
  dsimp only
  rw [hnext, h.size_eq, Array.pop_push]

theorem flatMap_linkedPreorder_next (ws : List Waiting) (w : Waiting) (id : Nat) :
    ((w :: ws).flatMap fun u => u.node.linkedPreorder) =
      w.node :: (w.below id ++ ws).flatMap fun u => u.node.linkedPreorder := by
  rw [List.flatMap_cons, Tree.linkedPreorder_eq, List.flatMap_append, Waiting.flatMap_below,
    List.cons_append]

/-- Rounds that are enough for what waits lay out all of it, if there are ids for all. -/
theorem Shows.fill (h : Shows arena links) (rounds : Nat) (stack : Array Waiting)
    (hready : ∀ w ∈ waiting stack, w.Ready links)
    (hroom : links.size + ((waiting stack).flatMap fun w => w.node.linkedPreorder).length ≤
      LinkedTree.capacity)
    (hrounds : ((waiting stack).flatMap fun w => w.node.linkedPreorder).length ≤ rounds) :
    ∃ final, fill rounds arena stack = some (.ok final) ∧
      Shows final (LinkedTree.layOut links ((waiting stack).map (·.pending links))) ∧
      final.entries.toList.map Entry.node = arena.entries.toList.map Entry.node ++
        (waiting stack).flatMap fun w => w.node.linkedPreorder := by
  induction rounds generalizing arena links stack with
  | zero =>
    cases hback : stack.back? with
    | none =>
      obtain rfl := Array.back?_eq_none_iff.mp hback
      exact ⟨arena, rfl, by simpa [waiting, LinkedTree.layOut] using h, by simp [waiting]⟩
    | some w =>
      obtain ⟨rest, rfl⟩ := Array.back?_eq_some_iff.mp hback
      rw [waiting_push, flatMap_linkedPreorder_next _ w links.size, List.length_cons] at hrounds
      omega
  | succ rounds ih =>
    cases hback : stack.back? with
    | none =>
      obtain rfl := Array.back?_eq_none_iff.mp hback
      exact ⟨arena, rfl, by simpa [waiting, LinkedTree.layOut] using h, by simp [waiting]⟩
    | some w =>
      obtain ⟨rest, rfl⟩ := Array.back?_eq_some_iff.mp hback
      have hready' := hready
      rw [waiting_push] at hready' hroom hrounds ⊢
      rw [flatMap_linkedPreorder_next _ w links.size] at hroom hrounds ⊢
      rw [List.length_cons] at hroom hrounds
      obtain ⟨_, hrest⟩ := List.forall_mem_cons.mp hready'
      obtain ⟨next, stack', hfill, hshows, hnodes, hwaiting⟩ := h.round hready (by omega)
      have hround := ih hshows stack'
      rw [hwaiting, hnodes, pending_next hrest, Array.size_push] at hround
      obtain ⟨final, hfinal, hshown, hlist⟩ :=
        hround (ready_next hrest w _) (by omega) (by omega)
      refine ⟨final, (hfill rounds).trans hfinal, ?_, ?_⟩
      · rw [List.map_cons, LinkedTree.layOut]
        exact hshown
      · rw [hlist, List.append_assoc, List.singleton_append]

/-- When there are more nodes than ids, the loop ends at the first that is left without one. -/
theorem Shows.fill_full (h : Shows arena links) (rounds : Nat) (stack : Array Waiting)
    (hready : ∀ w ∈ waiting stack, w.Ready links) (hsize : links.size ≤ LinkedTree.capacity)
    (hover : LinkedTree.capacity <
      links.size + ((waiting stack).flatMap fun w => w.node.linkedPreorder).length)
    (hrounds : LinkedTree.capacity < links.size + rounds) :
    Arena.fill rounds arena stack = some (.error .full) := by
  induction rounds generalizing arena links stack with
  | zero => omega
  | succ rounds ih =>
    cases hback : stack.back? with
    | none =>
      obtain rfl := Array.back?_eq_none_iff.mp hback
      simp [waiting] at hover
      omega
    | some w =>
      obtain ⟨rest, rfl⟩ := Array.back?_eq_some_iff.mp hback
      rcases Nat.lt_or_eq_of_le hsize with hroom | hfull
      · have hready' := hready
        rw [waiting_push] at hready' hover
        rw [flatMap_linkedPreorder_next _ w links.size, List.length_cons] at hover
        obtain ⟨_, hrest⟩ := List.forall_mem_cons.mp hready'
        obtain ⟨next, stack', hfill, hshows, _, hwaiting⟩ := h.round hready hroom
        have hround := ih hshows stack'
        rw [hwaiting, Array.size_push] at hround
        exact (hfill rounds).trans
          (hround (ready_next hrest w _) (by omega) (by omega) (by omega))
      · have hplace : arena.place w = .error .full := by
          rw [Arena.place, if_neg (by rw [h.size_eq]; omega)]
        rw [Arena.fill, Array.back?_push]
        dsimp only
        rw [hplace]

theorem fill_mono {rounds more : Nat} {stack : Array Waiting} {outcome : Except Fault Arena}
    (h : fill rounds arena stack = some outcome) (hle : rounds ≤ more) :
    fill more arena stack = some outcome := by
  induction rounds generalizing arena stack more with
  | zero =>
    rw [fill] at h
    cases more with
    | zero => rwa [fill]
    | succ more =>
      obtain ⟨hempty, rfl⟩ : stack.isEmpty ∧ .ok arena = outcome := by simpa using h
      obtain rfl : stack = #[] := by simpa using hempty
      rfl
  | succ rounds ih =>
    obtain ⟨more, rfl⟩ : ∃ k, more = k + 1 := ⟨more - 1, by omega⟩
    rw [fill] at h ⊢
    cases hback : stack.back? with
    | none => rwa [hback] at h
    | some w =>
      rw [hback] at h
      dsimp only at h ⊢
      cases hplace : arena.place w with
      | error fault => rwa [hplace] at h
      | ok next =>
        rw [hplace] at h
        exact ih h (by omega)

/-- Entry by entry, the arena is the linked tree. -/
structure Agrees (arena : Arena) (tree : LinkedTree) : Prop where
  size_eq : arena.entries.size = tree.size
  entry : ∀ (id : Nat) (e : Entry), arena.entries[id]? = some e →
    e.node.label.1 = tree.node id ∧ e.parent = tree.parent? id ∧ e.children = tree.childrenOf id ∧
      e.path = tree.path id

def IsParent (arena : Arena) (p c : Nat) : Prop := arena.entries[c]?.bind Entry.parent = some p

/-- The arena is the pre-order of a subject, and in each entry the parent, the children and the path
are right. -/
structure Flattens (arena : Arena) (t : Tree Numbered) : Prop where
  nodes : arena.entries.toList.map Entry.node = t.linkedPreorder
  root : ∀ e : Entry, arena.entries[0]? = some e → e.parent = none ∧ e.path = #[]
  parent_lt : ∀ p c, arena.IsParent p c → p < c
  increasing : ∀ (id : Nat) (e : Entry), arena.entries[id]? = some e →
    e.children.toList.Pairwise (· < ·)
  mem_children : ∀ (id : Nat) (e : Entry), arena.entries[id]? = some e →
    ∀ c, c ∈ e.children ↔ arena.IsParent id c
  targets : ∀ (id : Nat) (e : Entry), arena.entries[id]? = some e →
    (e.children.toList.map fun c => arena.entries[c]?.map Entry.node) =
      e.node.linkedChildren.map some
  path : ∀ (id : Nat) (e : Entry), arena.entries[id]? = some e → ∀ k c : Nat,
    e.children[k]? = some c → ∃ d, arena.entries[c]? = some d ∧ d.path = e.path.push k
  descendants : ∀ (id : Nat) (e : Entry), arena.entries[id]? = some e → ∀ d,
    Relation.ReflTransGen arena.IsParent id d ↔ id ≤ d ∧ d < id + e.node.linkedPreorder.length

variable {t : Tree Numbered}

theorem Shows.agrees {u : Tree Nat} (h : Shows arena (LinkedTree.ofTree u).links) :
    arena.Agrees (.ofTree u) where
  size_eq := h.size_eq
  entry := by
    intro id e he
    have hid : id < (LinkedTree.ofTree u).links.size := by
      rw [← h.size_eq]
      exact (Array.getElem?_eq_some_iff.mp he).1
    have hl := Array.getElem?_eq_getElem hid
    obtain ⟨e', he', hnode, hparent, hpath, hchildren⟩ := h.entry id _ hl
    obtain rfl : e' = e := Option.some.inj (he'.symm.trans he)
    refine ⟨?_, ?_, ?_, ?_⟩
    · rw [hnode, LinkedTree.node, hl, Option.map_some, Option.getD_some]
    · rw [hparent, LinkedTree.parent?, LinkedTree.ancestors, hl, Option.map_some, Option.getD_some]
    · rw [← Array.toList_inj, hchildren, LinkedTree.toList_childrenOf, if_pos]
      rwa [← LinkedTree.size_ofTree]
    · rw [hpath, LinkedTree.path, hl, Option.map_some, Option.getD_some]

theorem Agrees.isParent_iff {u : Tree Nat} (h : arena.Agrees (.ofTree u)) {p c : Nat} :
    arena.IsParent p c ↔ (LinkedTree.ofTree u).parent? c = some p := by
  rw [IsParent]
  cases hc : arena.entries[c]? with
  | none =>
    have hsize : u.size ≤ c := by
      rw [← LinkedTree.size_ofTree, ← h.size_eq]
      exact Array.getElem?_eq_none_iff.mp hc
    rw [LinkedTree.parent?, LinkedTree.ancestors_eq_nil (.inr hsize)]
    simp
  | some e => rw [Option.bind_some, (h.entry c e hc).2.1]

/-- What agrees with the linked tree and lists the right nodes is right in every field. -/
theorem Agrees.flattens (h : arena.Agrees (.ofTree t.unfold))
    (hnodes : arena.entries.toList.map Entry.node = t.linkedPreorder) : arena.Flattens t := by
  have hnode : ∀ id : Nat, arena.entries[id]?.map Entry.node = t.linkedPreorder[id]? := by
    intro id
    rw [← hnodes, List.getElem?_map, Array.getElem?_toList]
  have hplace : ∀ (id : Nat) (e : Entry), arena.entries[id]? = some e →
      t.linkedPreorder[id]? = some e.node := by
    intro id e he
    rw [← hnode, he, Option.map_some]
  refine
    { nodes := hnodes
      root := ?root
      parent_lt := ?parent_lt
      increasing := ?increasing
      mem_children := ?mem_children
      targets := ?targets
      path := ?path
      descendants := ?descendants }
  case root =>
    intro e he
    obtain ⟨-, hparent, -, hpath⟩ := h.entry 0 e he
    rw [hparent, hpath, LinkedTree.parent?, LinkedTree.ancestors, LinkedTree.path,
      LinkedTree.link_ofTree_root]
    exact ⟨rfl, rfl⟩
  case parent_lt => exact fun p c hc => LinkedTree.parent?_lt (h.isParent_iff.mp hc)
  case increasing =>
    intro id e he
    rw [(h.entry id e he).2.2.1]
    exact LinkedTree.pairwise_childrenOf id
  case mem_children =>
    intro id e he c
    rw [(h.entry id e he).2.2.1, h.isParent_iff, ← LinkedTree.mem_childrenOf_iff,
      Array.mem_toList_iff]
  case targets =>
    intro id e he
    have hu := Tree.subtrees_unfold_of_linkedPreorder (hplace id e he)
    rw [(h.entry id e he).2.2.1, LinkedTree.childrenOf_ofTree hu,
      ← Tree.linkedPreorder_children (hplace id e he)]
    exact List.map_congr_left fun c _ => hnode c
  case path =>
    intro id e he k c hc
    obtain ⟨-, -, hchildren, hpath⟩ := h.entry id e he
    rw [hchildren] at hc
    have hlt : c < arena.entries.size := by
      rw [h.size_eq, LinkedTree.size_ofTree]
      exact LinkedTree.lt_size_of_mem_ancestors
        (LinkedTree.parent?_mem_ancestors (LinkedTree.parent?_eq_some_iff.mpr ⟨k, hc⟩))
    have hd := Array.getElem?_eq_getElem hlt
    refine ⟨_, hd, ?_⟩
    rw [(h.entry c _ hd).2.2.2, LinkedTree.path_child hc, hpath]
  case descendants =>
    intro id e he d
    have hu := Tree.subtrees_unfold_of_linkedPreorder (hplace id e he)
    have hparent : arena.IsParent =
        fun p c => (LinkedTree.ofTree t.unfold).parent? c = some p := by
      funext p c
      exact propext h.isParent_iff
    rw [hparent, LinkedTree.reflTransGen_parent?_iff (LinkedTree.lt_size_of_subtrees hu),
      LinkedTree.stop_of_subtrees hu, Tree.length_linkedPreorder]

theorem shows_empty : Shows {} #[] := ⟨rfl, by simp, by simp⟩

theorem waiting_singleton (w : Waiting) : waiting #[w] = [w] := rfl

theorem ready_root (t : Tree Numbered) (links : Array Link) :
    ∀ w ∈ waiting #[⟨t, none, 0⟩], w.Ready links := by
  intro w hw p hp
  rw [waiting_singleton, List.mem_singleton] at hw
  simp [hw] at hp

/-- There are ids for all nodes. -/
theorem layOut_ok (hroom : t.linkedPreorder.length ≤ LinkedTree.capacity) : ∃ arena : Arena,
    (∀ rounds, t.linkedPreorder.length ≤ rounds → layOut rounds t = some (.ok arena)) ∧
      arena.Flattens t ∧ arena.Agrees (.ofTree t.unfold) := by
  obtain ⟨arena, hfill, hshows, hnodes⟩ :=
    shows_empty.fill t.linkedPreorder.length #[⟨t, none, 0⟩] (ready_root t _)
      (by simpa [waiting_singleton] using hroom) (by simp [waiting_singleton])
  have hagrees : arena.Agrees (.ofTree t.unfold) := Shows.agrees hshows
  have hflattens := hagrees.flattens (by simpa [waiting_singleton] using hnodes)
  exact ⟨arena, fun rounds hle => fill_mono hfill hle, hflattens, hagrees⟩

/-- There are more nodes than ids. -/
theorem layOut_full (hover : LinkedTree.capacity < t.linkedPreorder.length) {rounds : Nat}
    (hrounds : LinkedTree.capacity < rounds) : layOut rounds t = some (.error .full) := by
  refine shows_empty.fill_full rounds _ (ready_root t _) (Nat.zero_le _) ?_ (by simpa using hrounds)
  simpa [waiting_singleton] using hover

theorem not_layOut_ok (hover : LinkedTree.capacity < t.linkedPreorder.length) :
    ¬ ∃ (rounds : Nat) (arena : Arena), layOut rounds t = some (.ok arena) := by
  rintro ⟨rounds, arena, hlayOut⟩
  have hmore := fill_mono hlayOut (Nat.le_add_right rounds (LinkedTree.capacity + 1))
  have hfull : layOut (rounds + (LinkedTree.capacity + 1)) t = some (.error .full) :=
    layOut_full hover (by omega)
  rw [layOut, hmore] at hfull
  cases hfull

/-- The tree that is searched is there when the loop has laid it out. -/
theorem isSome_build?_iff (t : Tree Numbered) :
    (LinkedTree.build? t.unfold).isSome ↔
      ∃ (rounds : Nat) (arena : Arena), layOut rounds t = some (.ok arena) := by
  rw [LinkedTree.isSome_build?, ← Tree.length_linkedPreorder]
  constructor
  · intro hroom
    obtain ⟨arena, hlayOut, _⟩ := layOut_ok hroom
    exact ⟨_, arena, hlayOut _ (Nat.le_refl _)⟩
  · intro hlayOut
    by_contra hover
    exact not_layOut_ok (Nat.lt_of_not_le hover) hlayOut

/-- The loop ends. If there are ids for all nodes, its arena is the pre-order of the subject, and it
is the linked tree that is searched; if not, it ends at the first node that is left without one. -/
theorem layOut_flattens (t : Tree Numbered) :
    (t.linkedPreorder.length ≤ LinkedTree.capacity → ∃ arena : Arena,
      (∀ rounds, t.linkedPreorder.length ≤ rounds → layOut rounds t = some (.ok arena)) ∧
        arena.Flattens t ∧ arena.Agrees (.ofTree t.unfold)) ∧
    (LinkedTree.capacity < t.linkedPreorder.length → ∀ rounds, LinkedTree.capacity < rounds →
      layOut rounds t = some (.error .full)) :=
  ⟨layOut_ok, fun hover _ hrounds => layOut_full hover hrounds⟩

/-- Thirty-three nodes that make more linked nodes than there are ids. -/
theorem layOut_doubled :
    (∃ rounds, layOut rounds ((Tree.doubled 32).number 0) = some (.error .full)) ∧
      ¬ ∃ (rounds : Nat) (arena : Arena),
        layOut rounds ((Tree.doubled 32).number 0) = some (.ok arena) := by
  have hover : LinkedTree.capacity < ((Tree.doubled 32).number 0).linkedPreorder.length := by
    rw [Tree.length_linkedPreorder]
    exact Tree.capacity_lt_size_doubled 0
  exact ⟨⟨LinkedTree.capacity + 1, layOut_full hover (Nat.lt_succ_self _)⟩, not_layOut_ok hover⟩

/-- A child that presents nothing, and one that presents itself and then its own child. -/
example :
    (((layOut 4 (.node (0, ⟨default, [[]]⟩) [.node (1, ⟨default, []⟩) [],
        .node (2, ⟨default, [[], [0]]⟩) [.node (3, ⟨default, [[]]⟩) []]])).bind
        Except.toOption).map fun arena =>
      arena.entries.toList.map fun e => (e.node.label.1, e.parent, e.children, e.path)) =
    some [(0, none, #[1, 3], #[]), (2, some 0, #[2], #[0]), (3, some 1, #[], #[0, 0]),
      (3, some 0, #[], #[1])] := by decide

end Arena

end TreeQuery
