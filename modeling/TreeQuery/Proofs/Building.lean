import TreeQuery.Proofs.Candidates
import TreeQuery.Proofs.CellUpdates

/-! The stream that is built for a query hands over the results of the query, once the cells that
have been made for it keep their promises. -/

namespace TreeQuery

/-- A walk that has ended before its bound has come to its end. -/
theorem Cells.walks_iterate {next : Nat → Option Nat} {bound : Nat} {start : Option Nat}
    (h : (Search.iterate next bound start : Search Event Nat).items.length < bound) :
    Walks next start (Search.iterate next bound start : Search Event Nat).items := by
  induction bound generalizing start with
  | zero => exact absurd h (Nat.not_lt_zero _)
  | succ bound ih =>
    cases start with
    | none => rfl
    | some id =>
      rw [Search.iterate, Search.items] at h ⊢
      exact ⟨rfl, ih (Nat.lt_of_succ_lt_succ h)⟩

theorem length_lt_of_pairwise_lt {l : List Nat} {n : Nat} (hl : l.Pairwise (· < ·))
    (hn : ∀ x ∈ l, 0 < x ∧ x < n) (hpos : 0 < n) : l.length < n := by
  have hsubset : l ⊆ List.range' 1 (n - 1) := by
    intro x hx
    have hin := hn x hx
    rw [List.mem_range'_1]
    omega
  have hnodup : l.Nodup := hl.imp fun h => Nat.ne_of_lt h
  have hlength := (List.subperm_of_subset hnodup hsubset).length_le
  rw [List.length_range'] at hlength
  omega

namespace State

variable {t : Tree Nat} {s r : State}

theorem Placed.of_advances {lt : LinkedTree} (hs : s.Placed lt) (h : s.Advances lt r) :
    r.Placed lt :=
  ⟨h.root_eq ▸ hs.root_lt, h.wellScoped⟩

theorem placed_enter {id : Nat} (hid : id < t.size) (capture : Option String) :
    (s.enter (.ofTree t) capture id).Placed (.ofTree t) :=
  ⟨LinkedTree.size_ofTree ▸ hid, enter_wellScoped id capture⟩

theorem placed_initial : (State.initial (.ofTree t)).Placed (.ofTree t) :=
  ⟨LinkedTree.size_ofTree ▸ t.size_pos, initial_wellScoped⟩

end State

namespace Cells

variable {scene : Scene} {t : Tree Nat} {s : State} {w w' : World} {h : Heap}

section Placed

variable (hscene : scene.tree = .ofTree t) (hs : s.Placed scene.tree)

include hscene hs

theorem inside_of_placed : inside scene s := by
  rw [inside, Bool.and_eq_true, decide_eq_true_iff, Option.all_eq_true]
  refine ⟨hs.root_lt, fun c hc => ?_⟩
  have hin := hs.wellScoped c hc
  rw [hscene] at hin
  rw [decide_eq_true_iff, hscene, LinkedTree.size_ofTree]
  exact LinkedTree.lt_size_of_mem_ancestors hin

theorem lt_size_of_mem_candidates {f : Filter} {id : Nat}
    (hid : id ∈ (scene.candidates f s).items) :
    0 < id ∧ id < t.size := by
  have hin := (Scene.reaches_of_mem_candidates hscene (hscene ▸ hs.wellScoped) hid).1
  have hroot := (LinkedTree.stop_ancestor hin).1
  have hsize := LinkedTree.lt_size_of_mem_ancestors hin
  exact ⟨by omega, hsize⟩

theorem walks_candidates (f : Filter) :
    Walks (nextCandidate scene f s) (firstCandidate scene f s) (scene.candidates f s).items := by
  have hpairwise := Scene.pairwise_candidates hscene (hscene ▸ hs.wellScoped) f
  have hlength := length_lt_of_pairwise_lt hpairwise
    (fun id hid => lt_size_of_mem_candidates hscene hs hid) t.size_pos
  have hsize : scene.tree.size = t.size := by rw [hscene, LinkedTree.size_ofTree]
  rw [← hsize, Scene.candidates] at hlength
  unfold nextCandidate firstCandidate Scene.candidates
  cases hdirect : f.direct with
  | true =>
    rw [hdirect] at hlength
    exact walks_iterate hlength
  | false =>
    rw [hdirect] at hlength
    exact walks_iterate hlength

end Placed

/-- A stream has been made together with its cells, below the level `b`, and hands over a list. -/
def Built (scene : Scene) (w : World) (h : Heap) (b : Nat) (made : Stream × Heap)
    (l : List State) : Prop :=
  ∃ w', Evolves w h w' made.2 ∧ Keeps scene w' made.2 ∧ Yields scene w' b made.1 l

theorem Built.mono {a b : Nat} {made : Stream × Heap} {l : List State}
    (hmade : Built scene w h a made l) (hab : a ≤ b) : Built scene w h b made l := by
  obtain ⟨w', hevolves, hkeeps, hyields⟩ := hmade
  exact ⟨w', hevolves, hkeeps, hyields.mono hab⟩

theorem Yields.distinct_empty {a b : Nat} {source : Stream} {l : List State} (hab : a < b)
    (hl : Yields scene w a source l) : Yields scene w b (.distinct ∅ source) l.eraseDups := by
  have hdistinct := Yields.distinct ∅ hab hl
  have hall : (l.filter fun s => !(∅ : Std.HashSet State).contains s) = l :=
    List.filter_eq_self.mpr fun _ _ => by simp
  rwa [hall] at hdistinct

/-- What a child of a container, used in that way, makes of a state. -/
def uses (scene : Scene) (key : State → State) (emit : State → State → Option State)
    (child : Query) : Find := fun s =>
  (scene.results child (key s)).filterMap (emit s)

section Steps

variable {key : State → State} {emit : State → State → Option State} {run : Stream × Heap}
  {l : List State} {a b : Nat}

theorem Built.step (hrun : Built scene w h a run l) (child : Query) (hrank : child.rank + 2 ≤ a)
    (hplaced : ∀ s ∈ l, s.Placed scene.tree ∧ (key s).Placed scene.tree) :
    Built scene w h (a + 2) (step scene child key emit run.1 run.2)
      (l.flatMap (uses scene key emit child)).eraseDups := by
  obtain ⟨w', hevolves, hkeeps, hyields⟩ := hrun
  unfold Cells.step
  cases scene.memoize with
  | false =>
    have hready : Call.Ready w' ⟨child, none, key, emit⟩ := by simp [Call.Ready]
    have hcalls := Yields.flatMap (Nat.lt_succ_self a) .done hyields hready hrank hplaced
    exact ⟨w', hevolves, hkeeps, hcalls.distinct_empty (Nat.lt_succ_self _)⟩
  | true =>
    have hready : Call.Ready (w'.addTable child) ⟨child, some run.2.newTable.1, key, emit⟩ := by
      intro t ht
      obtain rfl : run.2.newTable.1 = t := Option.some.inj ht
      exact hkeeps.getElem?_newTable child
    have hcalls := Yields.flatMap (Nat.lt_succ_self a) .done
      (hyields.extend (w'.extends_addTable child)) hready hrank hplaced
    exact ⟨w'.addTable child, hevolves.trans (.newTable child), hkeeps.newTable child,
      hcalls.distinct_empty (Nat.lt_succ_self _)⟩

/-- The children of a container that goes on from what it has found so far. -/
theorem Built.steps {P : State → Prop} {children : List Query}
    (hP : ∀ s, P s → s.Placed scene.tree ∧ (key s).Placed scene.tree)
    (hchild : ∀ child ∈ children, ∀ s, P s → ∀ r ∈ uses scene key emit child s, P r)
    (hrun : Built scene w h a run l) (hl : ∀ s ∈ l, P s) :
    Built scene w h (a + Query.ranks children)
      (children.foldl (fun run child => Cells.step scene child key emit run.1 run.2) run)
      (children.foldl (fun running child => (running.flatMap (uses scene key emit child)).eraseDups)
        l) := by
  induction children generalizing run l a with
  | nil => exact hrun
  | cons child children ih =>
    obtain ⟨hfirst, hrest⟩ := List.forall_mem_cons.mp hchild
    have hwide := hrun.mono (Nat.le_add_right a (child.rank + 2))
    have hstep : Built scene w h (a + (child.rank + 2) + 2)
        (Cells.step scene child key emit run.1 run.2)
        (l.flatMap (uses scene key emit child)).eraseDups :=
      hwide.step child (by omega) fun s hs => hP s (hl s hs)
    have hnext := ih hrest (hstep.mono (b := a + child.rank + 8) (by omega))
      (forall_mem_flatMap_eraseDups hfirst hl)
    rw [Query.ranks, ← Nat.add_assoc, ← Nat.add_assoc]
    exact hnext

end Steps

section Containers

variable {children : List Query}

def Promised (scene : Scene) (w : World) (h : Heap) (level : Nat) (made : Nat × Heap)
    (l : List State) : Prop :=
  ∃ w', Evolves w h w' made.2 ∧ Keeps scene w' made.2 ∧
    ∃ p, w'.buffers[made.1]? = some p ∧ p.contents = l ∧ p.level = level

theorem Promised.reader {level : Nat} {made : Nat × Heap} {l : List State}
    (hmade : Promised scene w h level made l) :
    Built scene w h (level + 1) (.reader made.1 0, made.2) l := by
  obtain ⟨w', hevolves, hkeeps, p, hp, rfl, rfl⟩ := hmade
  exact ⟨w', hevolves, hkeeps, .reader hp (Nat.lt_succ_self _) (Nat.zero_le _)⟩

theorem Built.promised {level : Nat} {made : Stream × Heap} {l : List State}
    (hmade : Built scene w h level made l) :
    Promised scene w h level (made.2.newBuffer made.1) l := by
  obtain ⟨w', hevolves, hkeeps, hyields⟩ := hmade
  exact ⟨w'.addBuffer l level, hevolves.trans (.newBuffer _ l level), hkeeps.newBuffer hyields,
    _, hkeeps.getElem?_newBuffer made.1 l level, rfl, rfl⟩

theorem Promised.extend {level : Nat} {made : Nat × Heap} {l : List State} {child : Query}
    (hmade : Promised scene w h level made l) (hs : s.Placed scene.tree)
    (hl : ∀ r ∈ l, s.Advances scene.tree r) :
    Promised scene w h (level + child.rank + 8) (made.2.newBuffer (widened s made.1 child))
      (Scene.widened s l (scene.results child)) := by
  obtain ⟨w', hevolves, hkeeps, hreader⟩ := hmade.reader
  let call : Call := ⟨child, none, id, fun _ r => some r⟩
  have hplaced : ∀ r ∈ s :: l, r.Placed scene.tree := by
    intro r hr
    rcases List.mem_cons.mp hr with rfl | hr
    · exact hs
    · exact hs.of_advances (hl r hr)
  have hseeds : Yields scene w' (level + 3)
      (.filterMap (fun seed => some (seed.startAt s)) (.chain (.once s) (.reader made.1 0)))
      (s :: l.map (·.startAt s)) := by
    have hchain := Yields.chain (Nat.lt_succ_self _) (.once s) hreader
    have hstart := Yields.filterMap (fun seed => some (seed.startAt s)) (Nat.lt_succ_self _) hchain
      hplaced
    rw [List.filterMap_eq_map'] at hstart
    exact hstart
  have hseedsPlaced : ∀ seed ∈ (s :: l.map (·.startAt s)).eraseDups, seed.Placed scene.tree := by
    intro seed hseed
    rcases List.mem_cons.mp (List.mem_eraseDups.mp hseed) with rfl | hseed
    · exact hs
    · obtain ⟨r, hr, rfl⟩ := List.mem_map.mp hseed
      exact hs.of_advances ((hl r hr).startAt hs.wellScoped)
  have hresults : call.results scene = scene.results child := by
    funext r
    exact List.filterMap_some
  have hrank : call.query.rank + 2 ≤ level + child.rank + 4 := by
    change child.rank + 2 ≤ _
    omega
  have hextended := Yields.flatMap (Nat.lt_succ_self (level + child.rank + 4)) .done
    ((hseeds.distinct_empty (Nat.lt_succ_self _)).mono (by omega))
    (show call.Ready w' by simp [call, Call.Ready]) hrank
    fun seed hseed => ⟨hseedsPlaced seed hseed, hseedsPlaced seed hseed⟩
  rw [hresults, List.nil_append] at hextended
  have hwidened : Yields scene w' (level + child.rank + 8) (widened s made.1 child)
      (Scene.widened s l (scene.results child)) :=
    (Yields.chain (Nat.lt_succ_self (level + child.rank + 5)) (hreader.mono (by omega))
      hextended).distinct_empty (by omega)
  have hbuilt : Built scene w h (level + child.rank + 8) (widened s made.1 child, made.2)
      (Scene.widened s l (scene.results child)) :=
    ⟨w', hevolves, hkeeps, hwidened⟩
  exact hbuilt.promised

theorem Built.once (hkeeps : Keeps scene w h) (s : State) : Built scene w h 0 (.once s, h) [s] :=
  ⟨w, .refl w h, hkeeps, .once s⟩

/-- The part of an exact container that has been built. -/
theorem Built.advance {progress : Progress} {l : List State} {a : Nat} {child : Query}
    (hrun : Built scene w h a (progress.running, progress.heap) l)
    (hs : s.Placed scene.tree) (hl : ∀ r ∈ l, s.Advances scene.tree r) :
    Built scene w h (a + child.rank + 8)
      ((advance scene progress child).running, (advance scene progress child).heap)
      (l.flatMap (scene.covering (progress.closed && child.isSingle)
        (scene.results child))).eraseDups := by
  have hplaced : ∀ r ∈ l, r.Placed scene.tree ∧ (id r).Placed scene.tree :=
    fun r hr => ⟨hs.of_advances (hl r hr), hs.of_advances (hl r hr)⟩
  unfold Cells.advance
  cases progress.closed && child.isSingle with
  | false =>
    have huses : uses scene id (fun _ found => some (found.align scene.tree)) child =
        scene.covering false (scene.results child) := by
      funext r
      exact congrFun List.filterMap_eq_map' _
    have hstep : Built scene w h (a + (child.rank + 2) + 2) (Cells.step scene child id
          (fun _ found => some (found.align scene.tree)) progress.running progress.heap) _ :=
      (hrun.mono (Nat.le_add_right a (child.rank + 2))).step child (by omega) hplaced
    rw [huses] at hstep
    exact hstep.mono (by omega)
  | true =>
    let ahead (r : State) : Option State := if r.cursor.isSome then some r else none
    obtain ⟨w', hevolves, hkeeps', hyields⟩ := hrun
    have hahead : Built scene w h (a + 1) (.filterMap ahead progress.running, progress.heap)
        (l.filterMap ahead) :=
      ⟨w', hevolves, hkeeps',
        hyields.filterMap ahead (Nat.lt_succ_self a) fun r hr => (hplaced r hr).1⟩
    have hfiltered : ∀ r ∈ l.filterMap ahead, r.Placed scene.tree ∧ (id r).Placed scene.tree := by
      intro r hr
      obtain ⟨u, hu, hur⟩ := List.mem_filterMap.mp hr
      have hsame : u = r := by
        simp only [ahead] at hur
        split at hur
        · exact Option.some.inj hur
        · exact absurd hur (by simp)
      exact hplaced r (hsame ▸ hu)
    rw [Scene.flatMap_covering_true]
    have hwide := hahead.mono (Nat.le_add_right (a + 1) (child.rank + 2))
    exact (hwide.step child (by omega) hfiltered).mono (by omega)

variable (hscene : scene.tree = .ofTree t) (hs : s.Placed scene.tree) (hkeeps : Keeps scene w h)

include hscene in
theorem advances_of_mem_results {u r : State} (q : Query) (hu : s.Advances scene.tree u)
    (hr : r ∈ scene.results q u) : s.Advances scene.tree r := by
  rw [hscene] at hu ⊢
  exact hu.trans (Scene.advances_of_mem_results hscene q hu.wellScoped hr)

include hscene hs hkeeps

theorem built_ordered :
    Built scene w h (Query.ranks children + 2) (ordered scene children s h)
      (scene.results (.container .ordered children) s) := by
  have huses : uses scene id (fun _ found => some found) = scene.results := by
    funext child r
    exact List.filterMap_some
  have hchild : ∀ child ∈ children, ∀ u, s.Advances scene.tree u →
      ∀ r ∈ uses scene id (fun _ found => some found) child u, s.Advances scene.tree r := by
    intro child _ u hu r hr
    rw [huses] at hr
    exact advances_of_mem_results hscene child hu hr
  have hplaced : ∀ u, s.Advances scene.tree u →
      u.Placed scene.tree ∧ (id u).Placed scene.tree :=
    fun u hu => ⟨hs.of_advances hu, hs.of_advances hu⟩
  have hsteps := Built.steps hplaced hchild (.once hkeeps s) (by simpa using hs.wellScoped.advances)
  rw [huses] at hsteps
  rw [Scene.results_ordered, chain, List.foldl_map]
  exact hsteps.mono (by omega)

theorem built_unordered :
    Built scene w h (Query.ranks children + 2) (unordered scene children s h)
      (scene.results (.container .unordered children) s) := by
  have huses : uses scene (·.startAt s)
        (fun before found => some (found.notBefore scene.tree before)) =
      fun child => scene.anywhere s (scene.results child) := by
    funext child r
    exact congrFun List.filterMap_eq_map' _
  have hchild : ∀ child ∈ children, ∀ u, s.Advances scene.tree u →
      ∀ r ∈ uses scene (·.startAt s) (fun before found => some (found.notBefore scene.tree before))
        child u, s.Advances scene.tree r := by
    intro child _ u hu r hr
    rw [huses] at hr
    rw [hscene] at hu ⊢
    exact Scene.advances_of_mem_anywhere_results hscene child (hscene ▸ hs.wellScoped) hu hr
  have hsteps := Built.steps
    (fun u hu => ⟨hs.of_advances hu, hs.of_advances (hu.startAt hs.wellScoped)⟩) hchild
    (.once hkeeps s) (by simpa using hs.wellScoped.advances)
  rw [huses] at hsteps
  rw [Scene.results_unordered, chain, List.foldl_map]
  exact hsteps.mono (by omega)

/-- The last of the buffers that an `any` container makes. The buffer of a child is above the one
before it, which feeds it twice. -/
theorem promised_accumulated :
    Promised scene w h (Query.ranks children)
      (children.foldl (fun last child => last.2.newBuffer (widened s last.1 child))
        (h.newBuffer .done))
      (Scene.accumulated (children.map scene.results) s) := by
  have hfold (children : List Query) (level : Nat) (made : Nat × Heap) (l : List State)
      (hmade : Promised scene w h level made l) (hl : ∀ r ∈ l, s.Advances scene.tree r) :
      Promised scene w h (level + Query.ranks children)
        (children.foldl (fun last child => last.2.newBuffer (widened s last.1 child)) made)
        ((children.map scene.results).foldl (Scene.widened s) l) := by
    induction children generalizing level made l with
    | nil => exact hmade
    | cons child children ih =>
      have hnext : ∀ r ∈ Scene.widened s l (scene.results child), s.Advances scene.tree r :=
        Scene.forall_mem_widened (fun u hu r hr => advances_of_mem_results hscene child hu hr)
          hs.wellScoped.advances (fun r hr => hr.startAt hs.wellScoped) hl
      have hrest := ih _ _ _ (hmade.extend hs hl) hnext
      rw [Query.ranks, ← Nat.add_assoc, ← Nat.add_assoc]
      exact hrest
  have hdone : Built scene w h 0 (.done, h) [] := ⟨w, .refl w h, hkeeps, .done⟩
  have hall := hfold children 0 _ _ hdone.promised (by simp)
  rwa [Nat.zero_add] at hall

theorem built_any (optional : Bool) :
    Built scene w h (Query.ranks children + 2) (any optional children s h)
      (scene.results (.container (if optional then .optional else .any) children) s) := by
  have hfound : Promised scene w h (Query.ranks children) _ _ :=
    promised_accumulated hscene hs hkeeps
  obtain ⟨w', hevolves, hkeeps', hreader⟩ := hfound.reader
  have hfallback := Yields.orElse (if optional then some s else none) (Nat.lt_succ_self _) hreader
  rw [any]
  cases children with
  | nil =>
    have hnil : scene.results (.container (if optional then .optional else .any) []) s = [s] := by
      cases optional with
      | true => simp [Scene.results_optional, Scene.accumulated]
      | false => simp [Scene.results_any]
    rw [hnil]
    exact (Built.once hkeeps s).mono (Nat.zero_le _)
  | cons child children =>
    have hresults : scene.results
          (.container (if optional then .optional else .any) (child :: children)) s =
        let found := Scene.accumulated ((child :: children).map scene.results) s
        if found.isEmpty then (if optional then some s else none).toList else found := by
      cases optional with
      | true => exact scene.results_optional (child :: children) s
      | false =>
        have hany := scene.results_any (child :: children) s
        simp only [Bool.false_eq_true, if_false, Option.toList_none]
        rw [hany, List.isEmpty_cons, if_neg Bool.false_ne_true]
        split
        next hempty => exact List.isEmpty_iff.mp hempty
        next => rfl
    rw [hresults]
    exact ⟨w', hevolves, hkeeps', hfallback⟩

theorem built_exact :
    Built scene w h (Query.ranks children + 2) (exact scene children s h)
      (scene.results (.container .exact children) s) := by
  have hfold (children : List Query) (a : Nat) (progress : Progress) (l : List State)
      (hrun : Built scene w h a (progress.running, progress.heap) l)
      (hl : ∀ r ∈ l, s.Advances scene.tree r) :
      let last := children.foldl (advance scene) progress
      let found := (children.zip (progress.closed :: children.map Query.isPrimitive)).foldl
        (fun running part => (running.flatMap (scene.stretch part)).eraseDups) l
      Built scene w h (a + Query.ranks children) (last.running, last.heap) found ∧
        last.closed = (children.getLast?.map Query.isPrimitive).getD progress.closed ∧
        ∀ r ∈ found, s.Advances scene.tree r := by
    induction children generalizing a progress l with
    | nil => exact ⟨hrun, rfl, hl⟩
    | cons child children ih =>
      have hnext : ∀ r ∈ (l.flatMap (scene.stretch (child, progress.closed))).eraseDups,
          s.Advances scene.tree r := by
        refine forall_mem_flatMap_eraseDups (fun u hu r hr => ?_) hl
        obtain ⟨found, hf, rfl⟩ := Scene.exists_of_mem_covering hr
        have hfound := advances_of_mem_results hscene child hu hf
        rw [hscene] at hfound ⊢
        exact hfound.align
      obtain ⟨hbuilt, hclosed, hall⟩ := ih (a + child.rank + 8) (advance scene progress child) _
        (hrun.advance hs hl) hnext
      refine ⟨?_, hclosed.trans ?_, hall⟩
      · rw [Query.ranks, ← Nat.add_assoc, ← Nat.add_assoc]
        exact hbuilt
      · cases hlast : children.getLast? <;> simp [List.getLast?_cons, hlast, advance]
  obtain ⟨⟨w', hevolves, hkeeps', hyields⟩, hclosed, hall⟩ := hfold children 0
    { running := .once s, heap := h } [s] (.once hkeeps s) (by simpa using hs.wellScoped.advances)
  rw [Scene.results_exact, exact, hclosed, chain, List.foldl_map, Query.endsClosed]
  dsimp only
  split
  · have hend := hyields.filterMap (fun found => if found.cursor.isNone then some found else none)
      (Nat.lt_succ_self _) fun r hr => hs.of_advances (hall r hr)
    rw [← List.filterMap_eq_filter]
    exact ⟨w', hevolves, hkeeps', hend.mono (by omega)⟩
  · exact ⟨w', hevolves, hkeeps', hyields.mono (by omega)⟩

theorem built (q : Query) : Built scene w h q.rank (build scene q s h) (scene.results q s) := by
  cases q with
  | container mode children =>
    rw [Query.rank]
    cases mode with
    | ordered => exact built_ordered hscene hs hkeeps
    | unordered => exact built_unordered hscene hs hkeeps
    | any => exact built_any hscene hs hkeeps false
    | optional => exact built_any hscene hs hkeeps true
    | exact => exact built_exact hscene hs hkeeps
  | single f nested =>
    have hsize : scene.tree.size = t.size := by rw [hscene, LinkedTree.size_ofTree]
    have hids : ∀ id ∈ (scene.candidates f s).items, id < scene.tree.size :=
      fun id hid => hsize ▸ (lt_size_of_mem_candidates hscene hs hid).2
    have hwalks := walks_candidates hscene hs f
    have hsingle := Yields.single (w := w) (Query.single f nested).hasCaptures
      (Nat.lt_succ_self (nested.rank + 2)) .done hwalks hids (Nat.le_refl _)
    rw [Scene.results_single]
    exact ⟨w, .refl w h, hkeeps, hsingle⟩

end Containers

end Cells

end TreeQuery
