import TreeQuery.Matcher
import TreeQuery.Proofs.Memo

/-! What a query finds from a state, as the list of all results: one equation for a single query
and one for each container, over the results of the queries inside. The equations do not mention
the memo. -/

namespace TreeQuery

@[elab_as_elim, induction_eliminator]
theorem Query.induction {motive : Query → Prop}
    (single : ∀ f nested, motive nested → motive (.single f nested))
    (container : ∀ mode children, (∀ q ∈ children, motive q) → motive (.container mode children))
    (q : Query) : motive q :=
  @Query.rec motive (fun qs => ∀ q ∈ qs, motive q) single container
    (fun _ h => absurd h List.not_mem_nil)
    (fun _ _ hq hqs _ h => (List.mem_cons.mp h).elim (fun he => he ▸ hq) (hqs _)) q

/-- Whether all the children of a container have to match. -/
def Mode.requiresAll : Mode → Bool
  | ordered | unordered | exact => true
  | any | optional => false

abbrev Find := State → List State

/-- Each part extends all that was found by those before it, and of that `keep` lets through what
goes on. -/
def chain (keep : List State → List State) (parts : List Find) : Find := fun s =>
  parts.foldl (fun running part => keep (running.flatMap part)) [s]

namespace Query

/-- The children of an exact container, each with whether the part before it ends at a sibling. -/
def stretches (children : List Query) : List (Query × Bool) :=
  children.zip (true :: children.map isPrimitive)

theorem mem_of_mem_stretches {children : List Query} {part : Query × Bool}
    (h : part ∈ stretches children) : part.1 ∈ children :=
  (List.of_mem_zip h).1

/-- Whether the last child ends at a sibling. -/
def endsClosed (children : List Query) : Bool := (children.getLast?.map isPrimitive).getD true

end Query

/-- What a plan finds, as a list. -/
def Plan.results (plan : Plan) : Find := fun s => (plan.run s).items

namespace Scene

variable (scene : Scene)

def results (q : Query) : Find := fun s => (scene.evaluate q s).items

/-- What a single query makes of an accepted candidate, `find` searching its children. -/
def below (f : Filter) (captures : Bool) (find : Find) (s : State) (id : Nat) : List State :=
  let found := (find (s.enter scene.tree f.capture id)).map State.bindings
  (if captures then found.eraseDups else found.take 1).map (s.past scene.tree id).withBindings

/-- A child of an unordered container that starts at `s`. -/
def anywhere (s : State) (find : Find) : Find := fun before =>
  (find (before.startAt s)).map (·.notBefore scene.tree before)

/-- A child of an exact container, which may have to end at the next sibling. -/
def covering (nextOnly : Bool) (find : Find) : Find := fun before =>
  let found := (find before).map (·.align scene.tree)
  if nextOnly then
    if before.cursor.isSome then
      found.filter fun r => r.cursor = before.cursor.bind scene.tree.directNeighbor?
    else []
  else found

/-- What an `any` container that starts at `s` has found after one more child. -/
def widened (s : State) (found : List State) (child : Find) : List State :=
  (found ++ (s :: found.map (·.startAt s)).eraseDups.flatMap child).eraseDups

/-- What an `any` container finds, be it nothing. -/
def accumulated (children : List Find) : Find := fun s => children.foldl (widened s) []

theorem plans_eq_map (qs : List Query) : scene.plans qs = qs.map scene.plan := by
  induction qs with
  | nil => rfl
  | cons q qs ih => rw [plans, ih, List.map_cons]

theorem plan_query (q : Query) : (scene.plan q).query = q := by
  cases q <;> rw [plan]

theorem items_step (child : Plan) (key : State → State) (emit : State → State → Option State)
    (running : States) :
    (scene.step child key emit running).items =
      running.items.flatMap fun s => (child.run (key s)).items.filterMap (emit s) := by
  cases h : scene.memoize with
  | true =>
    rw [step, if_pos h]
    exact Search.items_flatMapMemo Memo.faithful_empty _ _ key emit running
  | false =>
    rw [step, if_neg (by simp [h])]
    simp

theorem items_single (f : Filter) (captures : Bool) (nested : Plan) (s : State) :
    (scene.single f captures nested.run s).items =
      (scene.candidates f s).items.flatMap fun id =>
        if scene.accepts f s id then scene.below f captures nested.results s id else [] := by
  rw [single, Search.items_flatMap]
  congr 1
  funext id
  cases scene.accepts f s id with
  | false => simp [Search.items]
  | true =>
    rw [Search.items_noteIf, if_pos rfl, if_pos rfl]
    cases captures <;> simp [below, Plan.results]

theorem results_single (f : Filter) (nested : Query) (s : State) :
    scene.results (.single f nested) s =
      (scene.candidates f s).items.flatMap fun id =>
        if scene.accepts f s id then
          scene.below f (Query.single f nested).hasCaptures (scene.results nested) s id
        else [] := by
  rw [results, evaluate, plan]
  exact scene.items_single f _ (scene.plan nested) s

theorem items_foldl_distinct {part : Plan → States → States} {find : Plan → Find}
    (h : ∀ child running, (part child running).items = running.items.flatMap (find child))
    (children : List Plan) (s : State) :
    (children.foldl (fun running child => (part child running).distinct) (once s)).items =
      chain List.eraseDups (children.map find) s := by
  rw [chain, List.foldl_map]
  apply List.foldl_rel (r := fun (a : States) b => a.items = b) rfl
  intro child _ running found he
  rw [Search.items_distinct, h, he]

theorem items_ordered (children : List Plan) (s : State) :
    (scene.ordered children s).items = chain List.eraseDups (children.map Plan.results) s := by
  refine items_foldl_distinct (fun child running => ?_) children s
  simp only [items_step, List.filterMap_some]
  rfl

theorem items_unordered (children : List Plan) (s : State) :
    (scene.unordered children s).items =
      chain List.eraseDups (children.map fun child => scene.anywhere s child.results) s := by
  refine items_foldl_distinct (fun child running => ?_) children s
  simp only [items_step, List.filterMap_eq_map']
  rfl

theorem results_ordered (qs : List Query) (s : State) :
    scene.results (.container .ordered qs) s =
      chain List.eraseDups (qs.map scene.results) s := by
  rw [results, evaluate, plan, plans_eq_map]
  refine (scene.items_ordered _ s).trans ?_
  rw [List.map_map]
  rfl

theorem results_unordered (qs : List Query) (s : State) :
    scene.results (.container .unordered qs) s =
      chain List.eraseDups (qs.map fun q => scene.anywhere s (scene.results q)) s := by
  rw [results, evaluate, plan, plans_eq_map]
  refine (scene.items_unordered _ s).trans ?_
  rw [List.map_map]
  rfl

theorem extend_ofSource (s : State) (source : States) (child : Plan) :
    ∃ found : States, extend s (.ofSource source) child = .ofSource found ∧
      found.items = widened s source.items child.results := by
  refine ⟨_, rfl, ?_⟩
  change _ = widened s source.items fun t => (child.run t).items
  simp [Replay.items_read_ofSource, Replay.drained, widened]

theorem items_any (optional : Bool) (children : List Plan) (s : State) :
    (any optional children s).items =
      if children.isEmpty then [s]
      else
        let found := accumulated (children.map Plan.results) s
        if found.isEmpty then (if optional then some s else none).toList else found := by
  have hfold : ∃ found : States,
      children.foldl (extend s) (.ofSource .stop) = .ofSource found ∧
      found.items = accumulated (children.map Plan.results) s := by
    rw [accumulated, List.foldl_map]
    apply List.foldl_rel (r := fun (a : Replay States State) b =>
      ∃ found : States, a = .ofSource found ∧ found.items = b) ⟨.stop, rfl, rfl⟩
    rintro child _ _ _ ⟨source, rfl, rfl⟩
    exact extend_ofSource s source child
  obtain ⟨found, hplans, hitems⟩ := hfold
  by_cases he : children.isEmpty
  · simp [any, he, once, Search.items]
  · simp [any, he, hplans, Replay.items_read_ofSource, Search.items, hitems]

theorem results_any (qs : List Query) (s : State) :
    scene.results (.container .any qs) s =
      if qs.isEmpty then [s] else accumulated (qs.map scene.results) s := by
  rw [results, evaluate, plan, plans_eq_map]
  simp only [container, items_any, Bool.false_eq_true, if_false, Option.toList_none,
    List.isEmpty_map, List.map_map]
  split
  · rfl
  · split
    next h => exact (List.isEmpty_iff.mp h).symm
    next => rfl

theorem results_optional (qs : List Query) (s : State) :
    scene.results (.container .optional qs) s =
      let found := accumulated (qs.map scene.results) s
      if found.isEmpty then [s] else found := by
  rw [results, evaluate, plan, plans_eq_map]
  simp only [container, items_any, if_true, Option.toList_some, List.isEmpty_map, List.map_map]
  split
  next h => simp [List.isEmpty_iff.mp h, accumulated]
  next => rfl

def stretch (part : Query × Bool) : Find :=
  scene.covering (part.2 && part.1.isSingle) (scene.results part.1)

theorem covering_true (find : Find) (before : State) :
    scene.covering true find before =
      if before.cursor.isSome then
        (find before).filterMap fun found =>
          let found := found.align scene.tree
          if found.cursor = before.cursor.bind scene.tree.directNeighbor? then some found else none
      else [] := by
  rw [covering, if_pos rfl, ← List.filterMap_eq_filter, List.filterMap_map]
  simp only [Function.comp_def, Option.guard, decide_eq_true_eq]

theorem flatMap_covering_true (find : Find) (l : List State) :
    l.flatMap (scene.covering true find) =
      (l.filterMap fun s => if s.cursor.isSome then some s else none).flatMap fun before =>
        (find before).filterMap fun found =>
          let found := found.align scene.tree
          if found.cursor = before.cursor.bind scene.tree.directNeighbor? then some found
          else none := by
  induction l with
  | nil => rfl
  | cons before rest ih =>
    rw [List.flatMap_cons, ih, covering_true, List.filterMap_cons]
    by_cases hc : before.cursor.isSome
    · simp only [hc, if_true, List.flatMap_cons]
    · simp only [hc, if_false, List.nil_append, Bool.false_eq_true]

theorem items_advance (progress : Progress) (child : Plan) :
    (scene.advance progress child).running.items =
      (progress.running.items.flatMap
        (scene.covering (progress.closed && child.query.isSingle) child.results)).eraseDups := by
  simp only [advance, Search.items_distinct]
  congr 1
  cases h : progress.closed && child.query.isSingle with
  | false =>
    simp only [Bool.false_eq_true, if_false, items_step, List.filterMap_eq_map']
    rfl
  | true =>
    simp only [if_true, items_step, Search.items_filterMap, flatMap_covering_true]
    rfl

/-- How far an exact container has come after some of its children. -/
theorem items_foldl_advance (children : List Plan) (progress : Progress) :
    let last := children.foldl scene.advance progress
    last.running.items =
      (children.zip (progress.closed :: children.map fun child => child.query.isPrimitive)).foldl
        (fun running part => (running.flatMap
          (scene.covering (part.2 && part.1.query.isSingle) part.1.results)).eraseDups)
        progress.running.items ∧
    last.closed =
      (children.getLast?.map fun child => child.query.isPrimitive).getD progress.closed := by
  induction children generalizing progress with
  | nil => exact ⟨rfl, rfl⟩
  | cons child children ih =>
    have hh := ih (scene.advance progress child)
    rw [items_advance] at hh
    refine ⟨hh.1, hh.2.trans ?_⟩
    cases hl : children.getLast? <;> simp [List.getLast?_cons, hl, advance]

theorem items_exact (children : List Plan) (s : State) :
    (scene.exact children s).items =
      let parts := children.zip (true :: children.map fun child => child.query.isPrimitive)
      let found := chain List.eraseDups (parts.map fun part =>
        scene.covering (part.2 && part.1.query.isSingle) part.1.results) s
      if Query.endsClosed (children.map Plan.query) then found.filter (·.cursor.isNone)
      else found := by
  obtain ⟨hitems, hclosed⟩ := scene.items_foldl_advance children { running := once s }
  rw [Query.endsClosed, List.getLast?_map, Option.map_map]
  simp only [exact, hclosed, chain, List.foldl_map, Function.comp_def]
  split
  · rw [Search.items_filterMap, hitems, ← List.filterMap_eq_filter]
    rfl
  · exact hitems

theorem results_exact (qs : List Query) (s : State) :
    scene.results (.container .exact qs) s =
      let found := chain List.eraseDups ((Query.stretches qs).map scene.stretch) s
      if Query.endsClosed qs then found.filter (·.cursor.isNone) else found := by
  have hqueries : (qs.map scene.plan).map Plan.query = qs := by
    simp [Function.comp_def, plan_query]
  have hparts : (qs.map scene.plan).zip
        (true :: (qs.map scene.plan).map fun child => child.query.isPrimitive) =
      (Query.stretches qs).map fun part => (scene.plan part.1, part.2) := by
    simp only [List.map_map, Function.comp_def, plan_query, List.zip_map_left]
    rfl
  have hstretch : ((fun part : Plan × Bool =>
        scene.covering (part.2 && part.1.query.isSingle) part.1.results) ∘
      fun part : Query × Bool => (scene.plan part.1, part.2)) = scene.stretch := by
    funext part
    rw [Function.comp_apply, plan_query]
    rfl
  rw [results, evaluate, plan, plans_eq_map]
  refine (scene.items_exact _ s).trans ?_
  rw [hqueries, hparts]
  dsimp only
  rw [List.map_map, hstretch]

section Members

variable {scene} {s r : State}

theorem exists_of_mem_below {f : Filter} {captures : Bool} {find : Find} {id : Nat}
    (h : r ∈ scene.below f captures find s id) :
    ∃ x ∈ find (s.enter scene.tree f.capture id),
      r = (s.past scene.tree id).withBindings x.bindings := by
  obtain ⟨b, hb, rfl⟩ := List.mem_map.mp h
  have hfound : b ∈ (find (s.enter scene.tree f.capture id)).map State.bindings := by
    cases captures with
    | true => exact List.mem_eraseDups.mp hb
    | false => exact List.mem_of_mem_take hb
  obtain ⟨x, hx, rfl⟩ := List.mem_map.mp hfound
  exact ⟨x, hx, rfl⟩

theorem mem_chain_of_mem_results_exact {qs : List Query}
    (h : r ∈ scene.results (.container .exact qs) s) :
    r ∈ chain List.eraseDups ((Query.stretches qs).map scene.stretch) s := by
  rw [results_exact] at h
  dsimp only at h
  split at h
  · exact (List.mem_filter.mp h).1
  · exact h

/-- A result of a single query lies past a candidate that it accepts. -/
theorem exists_of_mem_results_single {f : Filter} {nested : Query}
    (h : r ∈ scene.results (.single f nested) s) :
    ∃ id ∈ (scene.candidates f s).items, scene.accepts f s id ∧
      ∃ x ∈ scene.results nested (s.enter scene.tree f.capture id),
        r = (s.past scene.tree id).withBindings x.bindings := by
  rw [results_single] at h
  obtain ⟨id, hid, hr⟩ := List.mem_flatMap.mp h
  split at hr
  next haccepts => exact ⟨id, hid, haccepts, exists_of_mem_below hr⟩
  next => simp at hr

theorem exists_of_mem_covering {nextOnly : Bool} {find : Find}
    (h : r ∈ scene.covering nextOnly find s) : ∃ found ∈ find s, r = found.align scene.tree := by
  have hfound : r ∈ (find s).map (·.align scene.tree) := by
    rw [covering] at h
    split at h
    · split at h
      · exact (List.mem_filter.mp h).1
      · simp at h
    · exact h
  obtain ⟨found, hf, rfl⟩ := List.mem_map.mp hfound
  exact ⟨found, hf, rfl⟩

end Members

end Scene

theorem chain_concat (keep : List State → List State) (parts : List Find) (part : Find)
    (s : State) : chain keep (parts ++ [part]) s = keep ((chain keep parts s).flatMap part) := by
  simp [chain]

theorem Scene.accumulated_concat (parts : List Find) (part : Find) (s : State) :
    accumulated (parts ++ [part]) s = widened s (accumulated parts s) part := by
  simp [accumulated]

theorem Scene.mem_accumulated_concat_iff {parts : List Find} {part : Find} {s r : State} :
    r ∈ accumulated (parts ++ [part]) s ↔
      r ∈ accumulated parts s ∨ r ∈ part s ∨ ∃ u ∈ accumulated parts s, r ∈ part (u.startAt s) := by
  simp only [accumulated_concat, widened, List.mem_eraseDups, List.mem_append, List.mem_flatMap,
    List.mem_cons, List.mem_map]
  constructor
  · rintro (hr | ⟨seed, rfl | ⟨u, hu, rfl⟩, hr⟩)
    · exact .inl hr
    · exact .inr (.inl hr)
    · exact .inr (.inr ⟨u, hu, hr⟩)
  · rintro (hr | hr | ⟨u, hu, hr⟩)
    · exact .inl hr
    · exact .inr ⟨s, .inl rfl, hr⟩
    · exact .inr ⟨_, .inr ⟨u, hu, rfl⟩, hr⟩

section Invariants

variable {P : State → Prop} {s r : State} {found : List State} {find : Find} {parts : List Find}

theorem forall_mem_flatMap_eraseDups (hfind : ∀ s, P s → ∀ r ∈ find s, P r)
    (hfound : ∀ r ∈ found, P r) : ∀ r ∈ (found.flatMap find).eraseDups, P r := by
  intro r hr
  obtain ⟨before, hb, hr⟩ := List.mem_flatMap.mp (List.mem_eraseDups.mp hr)
  exact hfind before (hfound before hb) r hr

theorem forall_mem_seeds (hs : P s) (hstart : ∀ r, P r → P (r.startAt s))
    (hfound : ∀ r ∈ found, P r) : ∀ seed ∈ (s :: found.map (·.startAt s)).eraseDups, P seed := by
  intro seed hseed
  rcases List.mem_cons.mp (List.mem_eraseDups.mp hseed) with rfl | hseed
  · exact hs
  · obtain ⟨earlier, he, rfl⟩ := List.mem_map.mp hseed
    exact hstart earlier (hfound earlier he)

theorem Scene.forall_mem_widened (hfind : ∀ s, P s → ∀ r ∈ find s, P r) (hs : P s)
    (hstart : ∀ r, P r → P (r.startAt s)) (hfound : ∀ r ∈ found, P r) :
    ∀ r ∈ widened s found find, P r := by
  intro r hr
  rcases List.mem_append.mp (List.mem_eraseDups.mp hr) with hr | hr
  · exact hfound r hr
  · obtain ⟨seed, hseed, hr⟩ := List.mem_flatMap.mp hr
    exact hfind seed (forall_mem_seeds hs hstart hfound seed hseed) r hr

/-- What holds of the start and is kept by every part holds of all that a chain finds. -/
theorem forall_mem_chain (hparts : ∀ part ∈ parts, ∀ s, P s → ∀ r ∈ part s, P r) (hs : P s) :
    ∀ r ∈ chain List.eraseDups parts s, P r := by
  rw [chain]
  refine List.foldlRecOn (motive := fun running => ∀ r ∈ running, P r) parts _ (by simpa) ?_
  intro running ih part hpart
  exact forall_mem_flatMap_eraseDups (hparts part hpart) ih

theorem Scene.forall_mem_accumulated (hparts : ∀ part ∈ parts, ∀ s, P s → ∀ r ∈ part s, P r)
    (hs : P s) (hstart : ∀ r, P r → P (r.startAt s)) : ∀ r ∈ accumulated parts s, P r := by
  rw [accumulated]
  refine List.foldlRecOn (motive := fun found => ∀ r ∈ found, P r) parts _ (by simp) ?_
  intro found ih part hpart
  exact forall_mem_widened (hparts part hpart) hs hstart ih

/-- What the children of a container keep, wherever they start, and what a move to a child of the
scope keeps, holds of all that the container finds. -/
theorem Scene.forall_mem_results_container {scene : Scene} {mode : Mode} {children : List Query}
    (hs : P s) (hchild : ∀ q ∈ children, ∀ u, P u → ∀ r ∈ scene.results q u, P r)
    (hanywhere : ∀ q ∈ children, ∀ u, P u → ∀ r ∈ scene.anywhere s (scene.results q) u, P r)
    (halign : ∀ r, P r → P (r.align scene.tree))
    (haccumulated : mode.requiresAll = false →
      ∀ r ∈ accumulated (children.map scene.results) s, P r) :
    ∀ r ∈ scene.results (.container mode children) s, P r := by
  intro r hr
  cases mode with
  | ordered =>
    rw [results_ordered] at hr
    exact forall_mem_chain (List.forall_mem_map.mpr hchild) hs r hr
  | unordered =>
    rw [results_unordered] at hr
    exact forall_mem_chain (List.forall_mem_map.mpr hanywhere) hs r hr
  | any =>
    rw [results_any] at hr
    split at hr
    · exact List.mem_singleton.mp hr ▸ hs
    · exact haccumulated rfl r hr
  | optional =>
    rw [results_optional] at hr
    dsimp only at hr
    split at hr
    · exact List.mem_singleton.mp hr ▸ hs
    · exact haccumulated rfl r hr
  | exact =>
    have hchain : ∀ r ∈ chain List.eraseDups ((Query.stretches children).map scene.stretch) s,
        P r := by
      refine forall_mem_chain (List.forall_mem_map.mpr ?_) hs
      intro part hpart before hb r hr
      obtain ⟨found, hf, rfl⟩ := exists_of_mem_covering hr
      exact halign found (hchild part.1 (Query.mem_of_mem_stretches hpart) before hb found hf)
    exact hchain r (mem_chain_of_mem_results_exact hr)

end Invariants

namespace Matcher

theorem items_searchBelow (m : Matcher) (q : Query) (s : Subject) (node : Nat) :
    (m.searchBelow q s node).items =
      (s.tree? node).toList.flatMap fun t =>
        (m.scene s (.ofTree t)).results q (.initial (.ofTree t)) := by
  cases h : s.tree? node <;> simp [searchBelow, h, Search.items, Scene.results]

theorem items_search (m : Matcher) (q : Query) (s : Subject) :
    (m.search q s).items =
      (((s.targets 0).filterMap s.tree?).flatMap fun t =>
        ((m.scene s (.ofTree t)).results q (.initial (.ofTree t))).map
          State.bindings).eraseDups := by
  simp only [search, Search.items_announce, Search.items_distinct, Search.items_map,
    Search.items_flatMap, Search.items_ofList, items_searchBelow]
  congr 1
  induction s.targets 0 with
  | nil => rfl
  | cons node rest ih =>
    cases h : s.tree? node <;> simpa [h] using ih

theorem hasMatch_iff {m : Matcher} {q : Query} {s : Subject} :
    m.hasMatch q s ↔ ∃ t ∈ (s.targets 0).filterMap s.tree?,
      (m.scene s (.ofTree t)).results q (.initial (.ofTree t)) ≠ [] := by
  have hsome {α : Type} (l : List α) : l ≠ [] ↔ ∃ a, a ∈ l := by
    rw [← List.isEmpty_eq_false_iff, List.isEmpty_eq_false_iff_exists_mem]
  rw [hasMatch, Search.item_pull, List.isSome_head?, items_search]
  simp only [hsome, List.mem_eraseDups, List.mem_flatMap, List.mem_map]
  constructor
  · rintro ⟨_, t, ht, r, hr, rfl⟩
    exact ⟨t, ht, r, hr⟩
  · rintro ⟨t, ht, r, hr⟩
    exact ⟨_, t, ht, r, hr, rfl⟩

end Matcher

end TreeQuery
