import TreeQuery.Proofs.Ownership

/-! The stream that is made for a query plays the search of the query, and all its cells are new. -/

namespace TreeQuery

namespace Cells

open Search (ofList)

variable {scene : Scene} {P P' : Contents} {h h' : Heap} {F F' G : Set Cell} {t : Tree Nat}
  {s : State} {stream : Stream} {search : States}

/-- A stream has been made that plays a search. Nothing was noted, and no cells but new ones are in
use. -/
def Made (scene : Scene) (P : Contents) (h : Heap) (made : Stream × Heap) (search : States) :
    Prop :=
  ∃ P' F, Changes P h ∅ P' made.2 F ∧ made.2.log = h.log ∧ Plays scene P' made.2 F made.1 search

theorem Plays.distinct_empty (hplays : Plays scene P h F stream search) :
    Plays scene P h F (.distinct ∅ stream) search.distinct := .distinct ∅ hplays

theorem Made.once (s : State) : Made scene P h (.once s, h) (Scene.once s) :=
  ⟨P, ∅, .refl (Set.empty_subset _), rfl, .once s⟩

section Steps

variable {key : State → State} {emit : State → State → Option State} {run : Stream × Heap}

theorem Made.step (hrun : Made scene P h run search) (child : Query)
    (hplaced : ∀ s ∈ search.items, (key s).Placed scene.tree) :
    Made scene P h (Cells.step scene child key emit run.1 run.2)
      (scene.step (scene.plan child) key emit search).distinct := by
  obtain ⟨P', F, hh, hlog, hplays⟩ := hrun
  rw [Cells.step, Scene.step]
  cases scene.memoize with
  | false =>
    let call : Call := ⟨child, none, key, emit⟩
    have hcalls : Plays scene P' run.2 F (.flatMap call .done run.1)
        (search.flatMapAfter (call.finds scene) []) :=
      .flatMap (.nothing rfl) (Set.disjoint_empty _) (Set.empty_disjoint _) (Set.empty_disjoint _)
        (Set.empty_subset _) (Set.empty_subset _) subset_rfl .done hplays hplaced
    rw [if_neg Bool.false_ne_true, if_neg Bool.false_ne_true, Search.flatMap_eq_flatMapAfter _ []]
    exact ⟨P', F, hh, hlog, hcalls.distinct_empty⟩
  | true =>
    let n := run.2.tables.size
    let call : Call := ⟨child, some n, key, emit⟩
    have hnew : Cell.table n ∉ run.2.cells := Nat.lt_irrefl n
    have htable : Changes P' run.2 F P' run.2.newTable.2 ({.table n} ∪ F) :=
      Changes.newTable.beside (Set.empty_subset _) subset_rfl hh.made
    have hmade : Changes P h ∅ P' run.2.newTable.2 ({.table n} ∪ F) :=
      hh.trans htable hh.within
    have hsource : Plays scene P' run.2.newTable.2 F run.1 search :=
      hplays.frame Changes.newTable hh.made (Set.empty_disjoint _)
    have hentries : run.2.newTable.2.tables[n]? = some {} := by
      simp [n, Heap.newTable]
    have henters : Enters scene P' run.2.newTable.2 .done call {} [] :=
      ⟨fun k => by simp, fun hb => by simp at hb⟩
    have hown : Disjoint {Cell.table n} F :=
      Set.disjoint_singleton_left.mpr fun hn => hnew (hh.made hn)
    have hcalls : Plays scene P' run.2.newTable.2 ({.table n} ∪ F) (.flatMap call .done run.1)
        (search.flatMapAfter (call.finds scene) []) :=
      .flatMap (.table rfl hentries henters) (Set.disjoint_empty _) hown (Set.empty_disjoint _)
        Set.subset_union_left (Set.empty_subset _) Set.subset_union_right .done hsource hplaced
    have hmemo : search.flatMapMemo scene.traced (.lookup child) key (scene.plan child).run emit ∅ =
        search.flatMapAfter (call.finds scene) [] :=
      Search.flatMapMemo_eq_flatMapAfter scene.traced _ key emit Memo.knows_empty search
    rw [if_pos rfl, if_pos rfl, scene.plan_query, hmemo]
    exact ⟨P', _, hmade, hlog, hcalls.distinct_empty⟩

/-- The children of a container that goes on from what it has found so far. -/
theorem Made.steps {R : State → Prop} {children : List Query}
    (hkey : ∀ s, R s → (key s).Placed scene.tree)
    (hchild : ∀ child ∈ children, ∀ s, R s → ∀ r ∈ uses scene key emit child s, R r)
    (hrun : Made scene P h run search) (hsearch : ∀ s ∈ search.items, R s) :
    Made scene P h
      (children.foldl (fun run child => Cells.step scene child key emit run.1 run.2) run)
      ((children.map scene.plan).foldl
        (fun running child => (scene.step child key emit running).distinct) search) := by
  induction children generalizing run search with
  | nil => exact hrun
  | cons child children ih =>
    obtain ⟨hfirst, hrest⟩ := List.forall_mem_cons.mp hchild
    refine ih hrest (hrun.step child fun s hs => hkey s (hsearch s hs)) ?_
    rw [Search.items_distinct, scene.items_step]
    exact forall_mem_flatMap_eraseDups hfirst hsearch

end Steps

section Containers

variable {children : List Query} (hscene : scene.tree = .ofTree t) (hs : s.Placed scene.tree)

include hs in
theorem advances_of_mem_once {r : State} (hr : r ∈ (Scene.once s).items) :
    s.Advances scene.tree r := by
  obtain rfl : r = s := List.mem_singleton.mp hr
  exact hs.wellScoped.advances

include hscene hs

theorem made_ordered :
    Made scene P h (ordered scene children s h)
      (scene.evaluate (.container .ordered children) s) := by
  have hchild : ∀ child ∈ children, ∀ u, s.Advances scene.tree u →
      ∀ r ∈ uses scene id (fun _ found => some found) child u, s.Advances scene.tree r := by
    intro child _ u hu r hr
    rw [uses, List.filterMap_some] at hr
    exact advances_of_mem_results hscene child hu hr
  rw [Scene.evaluate, Scene.plan, scene.plans_eq_map]
  exact Made.steps (fun u hu => hs.of_advances hu) hchild (.once s)
    fun r hr => advances_of_mem_once hs hr

theorem made_unordered :
    Made scene P h (unordered scene children s h)
      (scene.evaluate (.container .unordered children) s) := by
  have hchild : ∀ child ∈ children, ∀ u, s.Advances scene.tree u →
      ∀ r ∈ uses scene (·.startAt s) (fun before found => some (found.notBefore scene.tree before))
        child u, s.Advances scene.tree r := by
    intro child _ u hu r hr
    rw [uses, List.filterMap_eq_map'] at hr
    rw [hscene] at hu ⊢
    exact Scene.advances_of_mem_anywhere_results hscene child (hscene ▸ hs.wellScoped) hu hr
  rw [Scene.evaluate, Scene.plan, scene.plans_eq_map]
  exact Made.steps (fun u hu => hs.of_advances (hu.startAt hs.wellScoped)) hchild (.once s)
    fun r hr => advances_of_mem_once hs hr

end Containers

/-- A buffer has been made whose first reader plays a search. -/
def Kept (scene : Scene) (P : Contents) (h : Heap) (made : Nat × Heap) (search : States) : Prop :=
  ∃ P' F, Changes P h ∅ P' made.2 F ∧ made.2.log = h.log ∧ P' made.1 = search.items ∧
    Plays scene P' made.2 F (.reader made.1 0) search

theorem Kept.made {made : Nat × Heap} (hmade : Kept scene P h made search) :
    Made scene P h (.reader made.1 0, made.2) search := by
  obtain ⟨P', F, hh, hlog, _, hplays⟩ := hmade
  exact ⟨P', F, hh, hlog, hplays⟩

/-- A new buffer is fed by a stream that has been made. -/
theorem Made.kept {made : Stream × Heap} (hmade : Made scene P h made search) :
    Kept scene P h (made.2.newBuffer made.1) search := by
  obtain ⟨P', F, hh, hlog, hplays⟩ := hmade
  let b := made.2.buffers.size
  let P'' := Function.update P' b search.items
  have hnew : Cell.buffer b ∉ made.2.cells := Nat.lt_irrefl b
  have hbuffer : Changes P' made.2 F P'' (made.2.newBuffer made.1).2 ({.buffer b} ∪ F) :=
    (Changes.newBuffer made.1 search.items).beside (Set.empty_subset _) subset_rfl hh.made
  have hsource : Plays scene P'' (made.2.newBuffer made.1).2 F made.1 search :=
    hplays.frame (.newBuffer made.1 search.items) hh.made (Set.empty_disjoint _)
  have hcontents : P'' b = search.items := Function.update_self _ _ _
  have hentry : (made.2.newBuffer made.1).2.buffers[b]? =
      some { replay := .ofSource made.1 } := by
    simp [b, Heap.newBuffer]
  have hreader :
      Plays scene P'' (made.2.newBuffer made.1).2 ({.buffer b} ∪ F) (.reader b 0) search :=
    .live hentry rfl hcontents (.inl rfl) (fun hb => hnew (hh.made hb)) Set.subset_union_right
      hsource
  exact ⟨P'', _, hh.trans hbuffer hh.within, hlog, hcontents, hreader⟩

section Any

variable {children : List Query} (hscene : scene.tree = .ofTree t) (hs : s.Placed scene.tree)

include hs

theorem Kept.extend {made : Nat × Heap} (hmade : Kept scene P h made search)
    (hsearch : ∀ r ∈ search.items, s.Advances scene.tree r) (child : Query) :
    Kept scene P h (made.2.newBuffer (widened s made.1 child))
      (Scene.widen s search (scene.evaluate child)) := by
  obtain ⟨P', F, hh, hlog, hcontents, hreader⟩ := hmade
  have hplaced : ∀ r ∈ s :: (P' made.1).map (·.startAt s), r.Placed scene.tree := by
    rw [hcontents]
    intro r hr
    rcases List.mem_cons.mp hr with rfl | hr
    · exact hs
    · obtain ⟨u, hu, rfl⟩ := List.mem_map.mp hr
      exact hs.of_advances ((hsearch u hu).startAt hs.wellScoped)
  have hreads : (Stream.reader made.1 0).Reads made.1 := rfl
  have hwidened := (Plays.extended child hreads hreader hplaced).distinct_empty
  rw [hcontents] at hwidened
  have hnext : Made scene P h (widened s made.1 child, made.2) _ := ⟨P', F, hh, hlog, hwidened⟩
  exact hnext.kept

include hscene

/-- The last of the buffers that an `any` container makes. -/
theorem kept_accumulated :
    Kept scene P h
      (children.foldl (fun last child => last.2.newBuffer (widened s last.1 child))
        (h.newBuffer .done))
      ((children.map scene.evaluate).foldl (Scene.widen s) .stop) := by
  have hfold (children : List Query) (made : Nat × Heap) (search : States)
      (hmade : Kept scene P h made search) (hsearch : ∀ r ∈ search.items, s.Advances scene.tree r) :
      Kept scene P h
        (children.foldl (fun last child => last.2.newBuffer (widened s last.1 child)) made)
        ((children.map scene.evaluate).foldl (Scene.widen s) search) := by
    induction children generalizing made search with
    | nil => exact hmade
    | cons child children ih =>
      refine ih _ _ (hmade.extend hs hsearch child) ?_
      rw [Scene.items_widen]
      exact Scene.forall_mem_widened (fun u hu r hr => advances_of_mem_results hscene child hu hr)
        hs.wellScoped.advances (fun r hr => hr.startAt hs.wellScoped) hsearch
  have hdone : Made scene P h (.done, h) .stop := ⟨P, ∅, .refl (Set.empty_subset _), rfl, .done⟩
  exact hfold children _ _ hdone.kept (by simp [Search.items])

theorem made_any {mode : Mode} (hmode : mode.requiresAll = false) :
    Made scene P h (any (mode = .optional) children s h)
      (scene.evaluate (.container mode children) s) := by
  cases children with
  | nil =>
    rw [Scene.evaluate_eq_any scene hmode]
    exact .once s
  | cons child children =>
    have hkept : Kept scene P h
        ((child :: children).foldl (fun last child => last.2.newBuffer (widened s last.1 child))
          (h.newBuffer .done)) _ :=
      kept_accumulated hscene hs
    obtain ⟨P', F, hh, hlog, hreader⟩ := hkept.made
    rw [Scene.evaluate_any_eq scene hmode (List.cons_ne_nil _ _)]
    refine ⟨P', F, hh, hlog, ?_⟩
    have hplays := hreader.orElse (if mode = .optional then some s else none)
    simpa [any] using hplays

end Any

section Exact

variable {children : List Query} {progress : Progress} {progress' : Scene.Progress}

/-- The same part of an exact container has been made and is to be played. -/
structure Progresses (scene : Scene) (P : Contents) (h : Heap) (s : State) (progress : Progress)
    (progress' : Scene.Progress) : Prop where
  made : Made scene P h (progress.running, progress.heap) progress'.running
  closed : progress.closed = progress'.closed
  advances : ∀ r ∈ progress'.running.items, s.Advances scene.tree r

variable (hscene : scene.tree = .ofTree t) (hs : s.Placed scene.tree)

include hscene hs

theorem Progresses.advance (hprogress : Progresses scene P h s progress progress') (child : Query) :
    Progresses scene P h s (advance scene progress child)
      (scene.advance progress' (scene.plan child)) := by
  obtain ⟨hmade, hclosed, hadvances⟩ := hprogress
  have hplaced : ∀ r ∈ progress'.running.items, (id r).Placed scene.tree :=
    fun r hr => hs.of_advances (hadvances r hr)
  refine ⟨?_, ?_, ?_⟩
  · unfold Cells.advance Scene.advance
    rw [hclosed, scene.plan_query]
    cases progress'.closed && child.isSingle with
    | false => exact hmade.step child hplaced
    | true =>
      let ahead (r : State) : Option State := if r.cursor.isSome then some r else none
      obtain ⟨P', F, hh, hlog, hplays⟩ := hmade
      have hahead : Made scene P h (.filterMap ahead progress.running, progress.heap)
          (progress'.running.filterMap ahead) :=
        ⟨P', F, hh, hlog, hplays.filterMap ahead⟩
      refine hahead.step child fun r hr => ?_
      rw [Search.items_filterMap] at hr
      obtain ⟨u, hu, hur⟩ := List.mem_filterMap.mp hr
      have hsame : u = r := by
        simp only [ahead] at hur
        split at hur
        · exact Option.some.inj hur
        · exact absurd hur (by simp)
      exact hplaced r (hsame ▸ hu)
  · unfold Cells.advance Scene.advance
    exact congrArg Query.isPrimitive (scene.plan_query child).symm
  · rw [Scene.items_advance]
    refine forall_mem_flatMap_eraseDups (fun u hu r hr => ?_) hadvances
    obtain ⟨found, hf, rfl⟩ := Scene.exists_of_mem_covering hr
    have hfound := advances_of_mem_results hscene child hu hf
    rw [hscene] at hfound ⊢
    exact hfound.align

theorem made_exact :
    Made scene P h (exact scene children s h) (scene.evaluate (.container .exact children) s) := by
  have hfold (children : List Query) (progress : Progress) (progress' : Scene.Progress)
      (hprogress : Progresses scene P h s progress progress') :
      Progresses scene P h s (children.foldl (advance scene) progress)
        ((children.map scene.plan).foldl scene.advance progress') := by
    induction children generalizing progress progress' with
    | nil => exact hprogress
    | cons child children ih => exact ih _ _ (hprogress.advance hscene hs child)
  obtain ⟨⟨P', F, hh, hlog, hplays⟩, hclosed, _⟩ := hfold children
    { running := .once s, heap := h } { running := Scene.once s }
    ⟨.once s, rfl, fun r hr => advances_of_mem_once hs hr⟩
  rw [Scene.evaluate, Scene.plan, scene.plans_eq_map, exact]
  simp only [Scene.container, Scene.exact, ← hclosed]
  split
  · exact ⟨P', F, hh, hlog, hplays.filterMap _⟩
  · exact ⟨P', F, hh, hlog, hplays⟩

end Exact

section Single

/-- A single query tests its candidates one after the other. -/
theorem evaluate_single (scene : Scene) (f : Filter) (nested : Query) (s : State) :
    scene.evaluate (.single f nested) s =
      (ofList (scene.candidates f s).items).flatMap
        (tested scene f nested (Query.single f nested).hasCaptures s) := by
  have hcandidates : scene.candidates f s = ofList (scene.candidates f s).items := by
    rw [Scene.candidates]
    split
    · exact Search.iterate_eq_ofList _ _ _
    · exact Search.iterate_eq_ofList _ _ _
  have hbound (captures : Bool) (found : States) (place : State) :
      ((if captures then (found.map State.bindings).distinct
        else (found.map State.bindings).first).map place.withBindings) =
      if captures then (found.filterMap fun r => some (place.withBindings r.bindings)).distinct
        else (found.filterMap fun r => some (place.withBindings r.bindings)).first := by
    have hsplit : (found.filterMap fun r => some (place.withBindings r.bindings)) =
        (found.map State.bindings).map place.withBindings := by
      rw [Search.filterMap_some_comp, Search.map_map]
    rw [hsplit]
    cases captures with
    | true => exact Search.distinct_map (fun _ _ he => congrArg State.bindings he) _
    | false => exact Search.first_map _ _
  change scene.single f _ (scene.plan nested).run s = _
  rw [← hcandidates, Scene.single]
  congr 1
  funext id
  simp only [tested, taking, hbound]
  rfl

end Single

theorem made (hscene : scene.tree = .ofTree t) (hs : s.Placed scene.tree) (q : Query) :
    Made scene P h (build scene q s h) (scene.evaluate q s) := by
  cases q with
  | container mode children =>
    cases mode with
    | ordered => exact made_ordered hscene hs
    | unordered => exact made_unordered hscene hs
    | any =>
      have hmode : Mode.any.requiresAll = false := rfl
      exact made_any hscene hs hmode
    | optional =>
      have hmode : Mode.optional.requiresAll = false := rfl
      exact made_any hscene hs hmode
    | exact => exact made_exact hscene hs
  | single f nested =>
    have hids : ∀ id ∈ (scene.candidates f s).items, id < scene.tree.size := by
      intro id hid
      rw [hscene, LinkedTree.size_ofTree]
      exact (lt_size_of_mem_candidates hscene hs hid).2
    have hplays : Plays scene P h ∅ (build scene (.single f nested) s h).1
        ((ofList (scene.candidates f s).items).flatMap
          (tested scene f nested (Query.single f nested).hasCaptures s)) :=
      .single _ .done (walks_candidates hscene hs f) hids
    rw [evaluate_single]
    exact ⟨P, ∅, .refl (Set.empty_subset _), rfl, hplays⟩

section Candidates

variable {id : Nat} (hscene : scene.tree = .ofTree t) (hid : id < scene.tree.size)

include hscene hid

theorem placed_enter (s : State) (capture : Option String) :
    (s.enter scene.tree capture id).Placed scene.tree := by
  rw [hscene, LinkedTree.size_ofTree] at hid
  rw [hscene]
  exact State.placed_enter hid capture

theorem made_atCandidate (f : Filter) (nested : Query) (captures : Bool) :
    let found := build scene nested (s.enter scene.tree f.capture id) h
    Made scene P h (atCandidate scene captures s id found.1, found.2)
      (taking scene f nested captures s id) := by
  intro found
  obtain ⟨P', F, hh, hlog, hplays⟩ := made hscene (placed_enter hscene hid s f.capture) nested
  have hbound := hplays.filterMap fun r => some ((s.past scene.tree id).withBindings r.bindings)
  cases captures with
  | true => exact ⟨P', F, hh, hlog, hbound.distinct_empty⟩
  | false => exact ⟨P', F, hh, hlog, hbound.first⟩

end Candidates

end Cells

end TreeQuery
