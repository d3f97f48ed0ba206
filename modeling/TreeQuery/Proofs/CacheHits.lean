import TreeQuery.Proofs.Candidates
import TreeQuery.Proofs.FirstOccurrences
import TreeQuery.Proofs.LookupTables
import TreeQuery.Proofs.Places

/-! Where the cache can hit. The running states that a container offers to a child are distinct, so
that a child that starts from each of them is never looked up twice from one state. The children of
an unordered container start where the container starts, and there the running states differ by
their bindings alone. -/

namespace TreeQuery

section Container

variable (t : Tree Nat) (mode : Mode) (qs : List Query) (route : Route) (s : State)

/-- What is known of a container that starts at `s` when the children before `i` are done. -/
structure Running (i : Nat) (run : Journal State) : Prop where
  tidy : Tidy (.container mode qs) route run.lookups
  before : ∀ l ∈ run.lookups, ∃ j < i, l.InPart route j
  nodup : run.items.Nodup
  advances : ∀ r ∈ run.items, s.Advances (.ofTree t) r
  one_start : i = 0 → run.items.length ≤ 1

end Container

/-- The look-up of the running state `x.2`, which comes after those in `x.1`. -/
def Lookup.ofRunning (route : Route) (mode : Mode) (i : Nat) (q : Query) (key : State → State)
    (x : List State × State) : Lookup :=
  ⟨route, mode, i, q, x.2, decide (key x.2 ∈ x.1.map key)⟩

namespace Scene

variable {scene : Scene} {t : Tree Nat} {mode : Mode} {s : State} {nextOnly : Bool}

theorem key_stage (hmode : mode ≠ .unordered) : (scene.stage mode s nextOnly).key = id := by
  cases mode with
  | unordered => exact absurd rfl hmode
  | ordered | any | optional => rfl
  | exact => cases nextOnly <;> rfl

theorem advances_key_stage (hs : s.WellScoped (.ofTree t)) {before : State}
    (hb : s.Advances (.ofTree t) before) :
    s.Advances (.ofTree t) ((scene.stage mode s nextOnly).key before) := by
  by_cases hmode : mode = .unordered
  · subst hmode
    exact hb.startAt hs
  · rw [key_stage hmode]
    exact hb

theorem advances_emit_stage (hscene : scene.tree = .ofTree t) {before found r : State}
    (hb : s.Advances (.ofTree t) before) (hf : s.Advances (.ofTree t) found)
    (hr : (scene.stage mode s nextOnly).emit before found = some r) : s.Advances (.ofTree t) r := by
  cases mode with
  | ordered | any | optional =>
    obtain rfl : found = r := Option.some.inj hr
    exact hf
  | unordered =>
    obtain rfl : found.notBefore scene.tree before = r := Option.some.inj hr
    rw [hscene]
    exact hf.notBefore hb
  | exact =>
    have halign : r = found.align scene.tree := by
      cases nextOnly with
      | false => exact (Option.some.inj hr).symm
      | true => exact (Option.some.inj (Option.ite_none_right_eq_some.mp hr).2).symm
    rw [halign, hscene]
    exact hf.align

/-- A running state that has not been offered before, after those that have. -/
theorem justified_ofRunning {i : Nat} {x : List State × State} {front : List (List State × State)}
    (hearlier : x.1 = front.map Prod.snd) (hnew : x.2 ∉ x.1)
    (hroot : ∀ r ∈ x.1, r.root = x.2.root) (hone : i = 0 → x.1 = []) (route : Route) (q : Query) :
    (Lookup.ofRunning route mode i q (scene.stage mode s nextOnly).key x).Justified
      (front.map (Lookup.ofRunning route mode i q (scene.stage mode s nextOnly).key)) := by
  have hhit : (Lookup.ofRunning route mode i q (scene.stage mode s nextOnly).key x).hit ↔
      ∃ r ∈ x.1, (scene.stage mode s nextOnly).key r = (scene.stage mode s nextOnly).key x.2 := by
    simp [Lookup.ofRunning]
  constructor
  · intro h
    obtain ⟨r, hr, hkey⟩ := hhit.mp h
    constructor
    · by_contra hmode
      have hmode : mode ≠ .unordered := hmode
      rw [key_stage hmode, id, id] at hkey
      exact hnew (hkey ▸ hr)
    · refine Nat.pos_of_ne_zero fun hi => ?_
      rw [hone hi] at hr
      exact absurd hr List.not_mem_nil
  · intro _ e he _ hbefore
    obtain ⟨y, hy, rfl⟩ := List.mem_map.mp he
    have hbefore : y.2 = x.2 := hbefore
    exact hnew (hearlier ▸ hbefore ▸ List.mem_map_of_mem hy)
  · rintro (rfl : mode = .unordered)
    have hkey : ∀ r ∈ x.1, r.startAt s = x.2.startAt s ↔ r.bindings = x.2.bindings := by
      intro r hr
      simp [State.startAt, hroot r hr]
    rw [hhit]
    constructor
    · rintro ⟨r, hr, he⟩
      obtain ⟨y, hy, rfl⟩ := List.mem_map.mp (hearlier ▸ hr)
      exact ⟨_, List.mem_map_of_mem hy, rfl, (hkey y.2 hr).mp he⟩
    · rintro ⟨_, he, -, hbindings⟩
      obtain ⟨y, hy, rfl⟩ := List.mem_map.mp he
      have hr : y.2 ∈ x.1 := hearlier ▸ List.mem_map_of_mem hy
      exact ⟨y.2, hr, (hkey y.2 hr).mpr hbindings⟩

/-- The look-ups of one pass over distinct running states. -/
theorem orderly_ofRunning {running : List State} {i : Nat} (hnodup : running.Nodup)
    (hadvances : ∀ r ∈ running, s.Advances (.ofTree t) r) (hone : i = 0 → running.length ≤ 1)
    (route : Route) (q : Query) :
    Orderly ((withEarlier [] running).map
      (Lookup.ofRunning route mode i q (scene.stage mode s nextOnly).key)) := by
  intro front' l back' hsplit
  obtain ⟨front, rest, hfront, rfl, hrest⟩ := List.map_eq_append_iff.mp hsplit
  obtain ⟨x, back, rfl, rfl, rfl⟩ := List.map_eq_cons_iff.mp hrest
  have hearlier : x.1 = front.map Prod.snd := withEarlier_split hfront
  have hrunning : running = x.1 ++ x.2 :: back.map Prod.snd := by
    rw [← map_snd_withEarlier [] running, hfront, List.map_append, List.map_cons, hearlier]
  have hroot : ∀ r ∈ running, r.root = s.root := fun r hr => (hadvances r hr).root_eq
  rw [hrunning] at hnodup hone hroot
  refine justified_ofRunning hearlier ?_ (fun r hr => ?_) (fun hi => ?_) route q
  · exact fun hmem => (List.nodup_append.mp hnodup).2.2 _ hmem _ List.mem_cons_self rfl
  · have hx := hroot x.2 (List.mem_append_right _ List.mem_cons_self)
    exact (hroot r (List.mem_append_left _ hr)).trans hx.symm
  · have hlength := hone hi
    rw [List.length_append, List.length_cons] at hlength
    exact List.eq_nil_of_length_eq_zero (by omega)

theorem items_journalPart (hmemoize : scene.memoize = true) (q : Query) (route : Route) (i : Nat)
    (start : State) : (scene.journalPart q route i start).items = scene.results q start := by
  rw [results, ← mapNotes_journal hmemoize q (⟨i, start⟩ :: route), Search.items_mapNotes]
  rfl

section Pass

variable {stage : Stage} {qs : List Query} {route : Route} {i : Nat} {q : Query}
  {running : Journal State} {x : List State × State}

/-- What the child at `i` finds from the running state `x.2`, which comes after those in `x.1`. -/
def visit (scene : Scene) (stage : Stage) (mode : Mode) (route : Route) (i : Nat) (q : Query)
    (x : List State × State) : Journal State :=
  .lookUp scene.traced (fun before hit => .lookup ⟨route, mode, i, q, before, hit⟩) stage.key
    (scene.journalPart q route i) stage.emit x.1 x.2

theorem lookups_visit :
    (scene.visit stage mode route i q x).lookups =
      (if scene.traced then [Lookup.ofRunning route mode i q stage.key x] else []) ++
        if stage.key x.2 ∈ x.1.map stage.key then []
        else (scene.journalPart q route i (stage.key x.2)).lookups := by
  rw [Search.lookups, visit, Search.lookUp, Search.notes_noteIf, Search.notes_filterMap]
  by_cases h : stage.key x.2 ∈ x.1.map stage.key
  · cases scene.traced <;> simp [h, Lookup.ofRunning, Note.lookup?]
  · cases scene.traced <;> simp [h, Lookup.ofRunning, Note.lookup?, Search.lookups]

section Tidy

variable (hinside : Tidy q (⟨i, stage.key x.2⟩ :: route)
  (scene.journalPart q route i (stage.key x.2)).lookups)

include hinside

theorem located_visit (hmode : mode.requiresAll) (hq : qs[i]? = some q) {l : Lookup}
    (hl : l ∈ (scene.visit stage mode route i q x).lookups) :
    Located (.container mode qs) route l ∧ l.InPart route i := by
  rw [lookups_visit] at hl
  rcases List.mem_append.mp hl with hl | hl
  · split at hl
    · obtain rfl := List.mem_singleton.mp hl
      exact ⟨.own hmode rfl rfl hq, .inl ⟨rfl, rfl⟩⟩
    · exact absurd hl List.not_mem_nil
  · split at hl
    · exact absurd hl List.not_mem_nil
    · have hl := hinside.located l hl
      exact ⟨.child ⟨i, stage.key x.2⟩ hq hl, .inr ⟨stage.key x.2, hl.suffix⟩⟩

theorem filter_lookups_visit_own :
    (scene.visit stage mode route i q x).lookups.filter (·.table = (route, i)) =
      if scene.traced then [Lookup.ofRunning route mode i q stage.key x] else [] := by
  have hother : ∀ l ∈ (scene.journalPart q route i (stage.key x.2)).lookups,
      l.table ≠ (route, i) := by
    intro l hl ht
    have hsuffix := (hinside.located l hl).suffix
    rw [(Prod.mk.inj ht).1] at hsuffix
    exact not_cons_suffix hsuffix
  have hnil : (if stage.key x.2 ∈ x.1.map stage.key then []
      else (scene.journalPart q route i (stage.key x.2)).lookups).filter
        (·.table = (route, i)) = [] := by
    split
    · rfl
    · exact List.filter_eq_nil_iff.mpr fun l hl => by simpa using hother l hl
  rw [lookups_visit, List.filter_append, hnil, List.append_nil]
  cases scene.traced <;> simp [Lookup.ofRunning, Lookup.table]

end Tidy

theorem filter_lookups_visit_other {table : Route × Nat} (h : table ≠ (route, i)) :
    (scene.visit stage mode route i q x).lookups.filter (·.table = table) =
      if stage.key x.2 ∈ x.1.map stage.key then []
      else (scene.journalPart q route i (stage.key x.2)).lookups.filter
        (·.table = table) := by
  have hown : (if scene.traced then [Lookup.ofRunning route mode i q stage.key x] else []).filter
      (·.table = table) = [] := by
    cases scene.traced <;> simp [Lookup.ofRunning, Lookup.table, Ne.symm h]
  rw [lookups_visit, List.filter_append, hown, List.nil_append]
  split <;> rfl

/-- The look-ups of one table: all those of the pass itself, or those of one run of the child. The
later of two equal keys is a hit, and nothing is run from it. -/
theorem orderly_filter_visits {l : List State}
    (hown : Orderly ((withEarlier [] l).map (Lookup.ofRunning route mode i q stage.key)))
    (hinside : ∀ r ∈ l, Tidy q (⟨i, stage.key r⟩ :: route)
      (scene.journalPart q route i (stage.key r)).lookups) (table : Route × Nat) :
    Orderly ((withEarlier [] l).flatMap fun x =>
      (scene.visit stage mode route i q x).lookups.filter (·.table = table)) := by
  have hinside : ∀ x ∈ withEarlier [] l, Tidy q (⟨i, stage.key x.2⟩ :: route)
      (scene.journalPart q route i (stage.key x.2)).lookups :=
    fun x hx => hinside x.2 (mem_of_mem_withEarlier hx)
  by_cases htable : table = (route, i)
  · subst htable
    rw [List.flatMap_congr fun x hx => filter_lookups_visit_own (hinside x hx)]
    cases scene.traced with
    | false =>
      rw [List.flatMap_eq_nil_iff.mpr fun _ _ => if_neg Bool.false_ne_true]
      exact .nil
    | true =>
      rw [List.map_eq_flatMap] at hown
      exact hown
  · have hpair : (withEarlier [] l).Pairwise fun x y =>
        (scene.visit stage mode route i q x).lookups.filter (·.table = table) = [] ∨
          (scene.visit stage mode route i q y).lookups.filter (·.table = table) = [] := by
      refine (pairwise_withEarlier [] l).imp_of_mem fun {x y} hx hy hxy => ?_
      rw [filter_lookups_visit_other htable, filter_lookups_visit_other htable]
      by_cases hsame : stage.key x.2 = stage.key y.2
      · exact .inr (if_pos (hsame ▸ List.mem_map_of_mem hxy))
      · have hframe : (⟨i, stage.key x.2⟩ : Frame) ≠ ⟨i, stage.key y.2⟩ := by
          simpa using hsame
        have htables := (hinside x hx).table_ne (hinside y hy) hframe
        refine (filter_table_eq_nil_or htables table).imp ?_ ?_
        all_goals
          intro h
          rw [h, ite_self]
    rcases flatMap_of_pairwise_nil hpair with h | ⟨x, hx, h⟩
    · rw [h]
      exact .nil
    · rw [h, filter_lookups_visit_other htable]
      split
      · exact .nil
      · exact (hinside x hx).orderly.filter_table table

end Pass

end Scene

namespace Running

open Scene

variable {scene : Scene} {t : Tree Nat} {mode : Mode} {s : State} {nextOnly : Bool} {stage : Stage}
  {qs : List Query} {route : Route} {i : Nat} {q : Query} {running : Journal State}

theorem table_ne (h : Running t mode qs route s i running) {m : Lookup} (hm : m.InPart route i) :
    ∀ l ∈ running.lookups, l.table ≠ m.table := by
  intro l hl htable
  obtain ⟨j, hj, hpart⟩ := h.before l hl
  exact Nat.ne_of_lt hj (hpart.eq_of_table_eq hm htable)

theorem offered (h : Running t mode qs route s i running) (stage : Stage) :
    Running t mode qs route s i (stage.offered running) := by
  have hlookups : (stage.offered running).lookups = running.lookups := by
    rw [Search.lookups, Stage.offered, Search.notes_filterMap, Search.lookups]
  have hitems := stage.items_offered running
  constructor
  · rw [hlookups]
    exact h.tidy
  · rw [hlookups]
    exact h.before
  · rw [hitems]
    exact h.nodup.filter _
  · rw [hitems]
    exact fun r hr => h.advances r (List.mem_filter.mp hr).1
  · rw [hitems]
    exact fun hi => (List.length_filter_le _ _).trans (h.one_start hi)

/-- The look-ups of the pass come after all those of the children before, in tables of their own. -/
theorem tidy_visits (h : Running t mode qs route s i running)
    (hstage : stage = scene.stage mode s nextOnly) (hmode : mode.requiresAll) (hq : qs[i]? = some q)
    (hinside : ∀ r ∈ running.items, Tidy q (⟨i, stage.key r⟩ :: route)
      (scene.journalPart q route i (stage.key r)).lookups) :
    let visits := running.flatMapAfter
      (fun earlier before => scene.visit stage mode route i q (earlier, before)) []
    Tidy (.container mode qs) route visits.lookups ∧
      ∀ l ∈ visits.lookups, ∃ j < i + 1, l.InPart route j := by
  have hvisit : ∀ x ∈ withEarlier [] running.items,
      ∀ l ∈ (scene.visit stage mode route i q x).lookups,
        Located (.container mode qs) route l ∧ l.InPart route i :=
    fun x hx l hl => located_visit (hinside x.2 (mem_of_mem_withEarlier hx)) hmode hq hl
  have hown : Orderly ((withEarlier [] running.items).map
      (Lookup.ofRunning route mode i q stage.key)) := by
    rw [hstage]
    exact orderly_ofRunning h.nodup h.advances h.one_start route q
  have hdisjoint : ∀ l ∈ running.lookups, ∀ x ∈ withEarlier [] running.items,
      ∀ m ∈ (scene.visit stage mode route i q x).lookups, l.table ≠ m.table :=
    fun l hl x hx m hm => h.table_ne (hvisit x hx m hm).2 l hl
  refine ⟨⟨?_, fun l hl => ?_⟩, fun l hl => ?_⟩
  · exact orderly_flatMapAfter h.tidy.orderly hdisjoint (orderly_filter_visits hown hinside)
  · rcases mem_lookups_flatMapAfter.mp hl with hl | ⟨x, hx, hl⟩
    · exact h.tidy.located l hl
    · exact (hvisit x hx l hl).1
  · rcases mem_lookups_flatMapAfter.mp hl with hl | ⟨x, hx, hl⟩
    · obtain ⟨j, hj, hpart⟩ := h.before l hl
      exact ⟨j, Nat.lt_succ_of_lt hj, hpart⟩
    · exact ⟨i, Nat.lt_succ_self i, (hvisit x hx l hl).2⟩

theorem pass (hscene : scene.tree = .ofTree t) (hmemoize : scene.memoize = true)
    (hs : s.WellScoped (.ofTree t)) (hmode : mode.requiresAll) (hq : qs[i]? = some q)
    (hchild : ∀ route s, s.WellScoped (.ofTree t) → Tidy q route (scene.journal q route s).lookups)
    (h : Running t mode qs route s i running) (nextOnly : Bool) :
    Running t mode qs route s (i + 1)
      ((scene.stage mode s nextOnly).pass scene.traced
        (fun before hit => .lookup ⟨route, mode, i, q, before, hit⟩)
        (scene.journalPart q route i) running) := by
  generalize hstage : scene.stage mode s nextOnly = stage
  have hkey : ∀ r, s.Advances (.ofTree t) r → s.Advances (.ofTree t) (stage.key r) := by
    rw [← hstage]
    exact fun r => advances_key_stage hs
  have hoffered := h.offered stage
  have hlookups : (stage.pass scene.traced
      (fun before hit => .lookup ⟨route, mode, i, q, before, hit⟩)
      (scene.journalPart q route i) running).lookups =
      ((stage.offered running).flatMapAfter
        (fun earlier before => scene.visit stage mode route i q (earlier, before)) []).lookups := by
    rw [Search.lookups, Stage.pass, Search.notes_distinct]
    rfl
  obtain ⟨htidy, hbefore⟩ := hoffered.tidy_visits hstage.symm hmode hq fun r hr =>
    hchild _ _ (hkey r (hoffered.advances r hr)).wellScoped
  constructor
  · rw [hlookups]
    exact htidy
  · rw [hlookups]
    exact hbefore
  · rw [Stage.pass, Search.items_distinct]
    exact nodup_eraseDups _
  · intro r hr
    obtain ⟨before, hb, found, hf, hemit⟩ := Stage.exists_of_mem_pass hr
    have hb := h.advances before hb
    rw [items_journalPart hmemoize] at hf
    have hf := (hkey before hb).trans
      (advances_of_mem_results hscene q (hkey before hb).wellScoped hf)
    exact advances_emit_stage hscene hb hf (hstage.symm ▸ hemit)
  · exact fun hi => absurd hi (Nat.succ_ne_zero i)

theorem start (hs : s.WellScoped (.ofTree t)) : Running t mode qs route s 0 (.ofList [s]) where
  tidy := ⟨.nil, fun _ h => absurd h List.not_mem_nil⟩
  before := fun _ h => absurd h List.not_mem_nil
  nodup := List.nodup_singleton s
  advances := fun _ hr => List.mem_singleton.mp hr ▸ hs.advances
  one_start := fun _ => Nat.le_refl 1

theorem nothing : Running t mode qs route s 0 .stop where
  tidy := ⟨.nil, fun _ h => absurd h List.not_mem_nil⟩
  before := fun _ h => absurd h List.not_mem_nil
  nodup := .nil
  advances := fun _ hr => absurd hr List.not_mem_nil
  one_start := fun _ => Nat.zero_le 1

theorem widen (hscene : scene.tree = .ofTree t) (hmemoize : scene.memoize = true)
    (hs : s.WellScoped (.ofTree t)) (hq : qs[i]? = some q)
    (hchild : ∀ route s, s.WellScoped (.ofTree t) → Tidy q route (scene.journal q route s).lookups)
    (h : Running t mode qs route s i running) :
    Running t mode qs route s (i + 1)
      (Scene.widen s running (scene.journalPart q route i)) := by
  have hseeds := forall_mem_seeds hs.advances (fun r hr => hr.startAt hs) h.advances
  have hinside : ∀ seed ∈ (s :: running.items.map (·.startAt s)).eraseDups,
      Tidy q (⟨i, seed⟩ :: route) (scene.journalPart q route i seed).lookups :=
    fun seed hseed => hchild _ _ (hseeds seed hseed).wellScoped
  have hlookups : (Scene.widen s running (scene.journalPart q route i)).lookups =
      running.lookups ++ (s :: running.items.map (·.startAt s)).eraseDups.flatMap fun seed =>
        (scene.journalPart q route i seed).lookups := by
    have hnone : ((Search.ofList (s :: running.items.map (·.startAt s))).distinct :
        Journal State).lookups = [] := by
      rw [Search.lookups, Search.notes_distinct, Search.notes_ofList, List.filterMap_nil]
    rw [Search.lookups, Scene.widen, Search.notes_distinct, Search.notes_append,
      List.filterMap_append]
    congr 1
    exact (lookups_flatMap hnone).trans (by rw [Search.items_distinct, Search.items_ofList])
  have hpart : ∀ l ∈ (s :: running.items.map (·.startAt s)).eraseDups.flatMap fun seed =>
        (scene.journalPart q route i seed).lookups,
      Located (.container mode qs) route l ∧ l.InPart route i := by
    intro l hl
    obtain ⟨seed, hseed, hl⟩ := List.mem_flatMap.mp hl
    have hl := (hinside seed hseed).located l hl
    exact ⟨.child ⟨i, seed⟩ hq hl, .inr ⟨seed, hl.suffix⟩⟩
  constructor
  · rw [hlookups]
    refine ⟨h.tidy.orderly.append ?_ fun l hl m hm => ?_, fun l hl => ?_⟩
    · refine orderly_flatMap_of_tidy ((nodup_eraseDups _).imp fun hne heq => hne ?_) hinside
      exact congrArg Frame.start heq
    · exact h.table_ne (hpart m hm).2 l hl
    · exact (List.mem_append.mp hl).elim (h.tidy.located l) fun hl => (hpart l hl).1
  · rw [hlookups]
    intro l hl
    rcases List.mem_append.mp hl with hl | hl
    · obtain ⟨j, hj, hbefore⟩ := h.before l hl
      exact ⟨j, Nat.lt_succ_of_lt hj, hbefore⟩
    · exact ⟨i, Nat.lt_succ_self i, (hpart l hl).2⟩
  · rw [Scene.widen, Search.items_distinct]
    exact nodup_eraseDups _
  · rw [items_widen]
    simp only [items_journalPart hmemoize]
    refine forall_mem_widened (fun u hu r hr => ?_) hs.advances (fun r hr => hr.startAt hs)
      h.advances
    exact hu.trans (advances_of_mem_results hscene q hu.wellScoped hr)
  · exact fun hi => absurd hi (Nat.succ_ne_zero i)

section Run

variable (hscene : scene.tree = .ofTree t) (hmemoize : scene.memoize = true)
  (hs : s.WellScoped (.ofTree t))
  (hqs : ∀ q ∈ qs, ∀ route s, s.WellScoped (.ofTree t) →
    Tidy q route (scene.journal q route s).lookups) {rest : List Query}

include hscene hmemoize hs hqs

theorem journalAll (hmode : mode.requiresAll) (hrest : qs.drop i = rest) (closed : Bool)
    (h : Running t mode qs route s i running) :
    Tidy (.container mode qs) route
      (scene.journalAll mode route s i closed (rest.map scene.journalPlan) running).lookups := by
  induction rest generalizing i closed running with
  | nil =>
    have hfinish : (finish mode closed running).lookups = running.lookups := by
      rw [Search.lookups, finish]
      split
      · rw [Search.notes_filterMap, Search.lookups]
      · rfl
    rw [List.map_nil, Scene.journalAll, hfinish]
    exact h.tidy
  | cons q rest ih =>
    have hq : qs[i]? = some q := by
      rw [← List.head?_drop, hrest, List.head?_cons]
    have hchild := hqs q (List.mem_of_getElem? hq)
    have hpass := h.pass hscene hmemoize hs hmode hq hchild (closed && q.isSingle)
    rw [List.map_cons, Scene.journalAll]
    refine ih ?_ _ ?_
    · rw [← List.tail_drop, hrest, List.tail_cons]
    · rw [journalPlan_query]
      exact hpass

theorem journalAny (hrest : qs.drop i = rest) (h : Running t mode qs route s i running) :
    Tidy (.container mode qs) route
      (Scene.journalAny route s i (rest.map scene.journalPlan) running).lookups := by
  induction rest generalizing i running with
  | nil => exact h.tidy
  | cons q rest ih =>
    have hq : qs[i]? = some q := by
      rw [← List.head?_drop, hrest, List.head?_cons]
    have hchild := hqs q (List.mem_of_getElem? hq)
    rw [List.map_cons, Scene.journalAny]
    refine ih ?_ (h.widen hscene hmemoize hs hq hchild)
    rw [← List.tail_drop, hrest, List.tail_cons]

end Run

end Running

namespace Scene

variable {scene : Scene} {t : Tree Nat}

theorem lookups_journalCandidate_isPrefix (f : Filter) (captures : Bool) (nested : Query)
    (route : Route) (s : State) (id : Nat) :
    (scene.journalCandidate f captures (scene.journalPlan nested).run route s id).lookups <+:
      (scene.journalPart nested route 0 (s.enter scene.tree f.capture id)).lookups := by
  have hother (event : Event) (rest : Unit → Journal State) :
      (Search.noteIf scene.traced (Note.other event) rest).lookups = (rest ()).lookups := by
    rw [Search.lookups, Search.notes_noteIf]
    split <;> rfl
  rw [journalCandidate, hother]
  split
  · rw [Search.lookups, Search.notes_map]
    split
    · rw [Search.notes_distinct, Search.notes_map]
      exact List.prefix_refl _
    · have hfirst := Search.notes_first_isPrefix
        ((scene.journalPart nested route 0 (s.enter scene.tree f.capture id)).map State.bindings)
      rw [Search.notes_map] at hfirst
      exact hfirst.filterMap _
  · exact List.nil_prefix

/-- The candidates have different ids, so the searches below them start from different states. -/
theorem tidy_journalSingle (hscene : scene.tree = .ofTree t) {f : Filter} {nested : Query}
    (hnested : ∀ route s, s.WellScoped (.ofTree t) →
      Tidy nested route (scene.journal nested route s).lookups) (captures : Bool) (route : Route)
    {s : State} (hs : s.WellScoped (.ofTree t)) :
    Tidy (.single f nested) route
      (scene.journalSingle f captures (scene.journalPlan nested).run route s).lookups := by
  have hinside : ∀ id, Tidy nested (⟨0, s.enter scene.tree f.capture id⟩ :: route)
      (scene.journalCandidate f captures (scene.journalPlan nested).run route s id).lookups := by
    intro id
    have hstart : (s.enter scene.tree f.capture id).WellScoped (.ofTree t) := by
      rw [hscene]
      exact State.enter_wellScoped id f.capture
    exact (hnested _ _ hstart).of_isPrefix
      (lookups_journalCandidate_isPrefix f captures nested route s id)
  have hnone : ((scene.candidates f s).mapNotes Note.other).lookups = [] := by
    rw [Search.lookups, Search.notes_mapNotes, List.filterMap_map]
    exact List.filterMap_eq_nil_iff.mpr fun _ _ => rfl
  rw [journalSingle, lookups_flatMap hnone, Search.items_mapNotes]
  constructor
  · refine orderly_flatMap_of_tidy ((pairwise_candidates hscene hs f).imp ?_) fun id _ => hinside id
    intro id other hlt heq
    exact Nat.ne_of_lt hlt (congrArg (·.start.root) heq)
  · intro l hl
    obtain ⟨id, -, hl⟩ := List.mem_flatMap.mp hl
    exact .nested _ ((hinside id).located l hl)

/-- From any state, a run of a query with a journal makes only look-ups that are justified. -/
theorem tidy_journal (hscene : scene.tree = .ofTree t) (hmemoize : scene.memoize = true) (q : Query)
    (route : Route) {s : State} (hs : s.WellScoped (.ofTree t)) :
    Tidy q route (scene.journal q route s).lookups := by
  induction q generalizing route s with
  | single f nested ih =>
    rw [journal, journalPlan]
    exact tidy_journalSingle hscene (fun route s hs => ih route hs) _ route hs
  | container mode qs ih =>
    have hqs : ∀ q ∈ qs, ∀ route s, s.WellScoped (.ofTree t) →
        Tidy q route (scene.journal q route s).lookups := fun q hq route s hs => ih q hq route hs
    rw [journal, journalPlan, journalPlans_eq_map]
    change Tidy _ route (scene.journalContainer mode _ route s).lookups
    rw [journalContainer]
    have hstart : Running t mode qs route s 0 (.ofList [s]) := .start hs
    split
    next hmode => exact hstart.journalAll hscene hmemoize hs hqs hmode List.drop_zero true
    next =>
      split
      · exact hstart.tidy
      · rw [Search.lookups, Search.notes_orElse]
        exact Running.journalAny hscene hmemoize hs hqs List.drop_zero .nothing

end Scene

namespace Matcher

variable (m : Matcher) (q : Query) (s : Subject)

theorem lookups_journal :
    (m.journal q s).lookups =
      (s.targets 0).zipIdx.flatMap fun target => (m.journalBelow q s target).lookups := by
  have hnone : (Search.ofList (s.targets 0).zipIdx : Journal (Nat × Nat)).lookups = [] := by
    rw [Search.lookups, Search.notes_ofList, List.filterMap_nil]
  rw [journal, lookups_announce, Search.lookups, Search.notes_distinct, Search.notes_map]
  exact (lookups_flatMap hnone).trans (by rw [Search.items_ofList])

theorem tidy_journalBelow (hcache : m.config.replayCache = true) (target : Nat × Nat) :
    ∃ start, Tidy q [⟨target.2, start⟩] (m.journalBelow q s target).lookups := by
  rw [journalBelow]
  cases s.tree? target.1 with
  | none => exact ⟨default, .nil, fun _ h => absurd h List.not_mem_nil⟩
  | some t => exact ⟨_, Scene.tidy_journal rfl hcache q _ State.initial_wellScoped⟩

/-- A search that keeps memos, told with a journal. Each look-up stems from the evaluation of a
container somewhere inside that of the query, for one of its children. It is a hit only for the
second or a later child of an unordered container. An ordered or exact container looks a child up at
most once for each running state, so that all these are misses. In an unordered container a look-up
is a hit if and only if a running state with equal bindings has been offered to the same child
before, in the same evaluation. As all this speaks of what comes before, it holds as well of a
search left early. -/
theorem search_lookups_justified (hcache : m.config.replayCache = true) :
    (m.journal q s).mapNotes Note.event = m.search q s ∧
      ∀ front l back, (m.journal q s).lookups = front ++ l :: back →
        (∃ frame, Located q [frame] l) ∧ l.Justified front := by
  refine ⟨mapNotes_journal hcache q s, fun front l back h => ⟨?_, ?_⟩⟩
  · have hl : l ∈ (m.journal q s).lookups := h ▸ List.mem_append_right _ List.mem_cons_self
    rw [lookups_journal] at hl
    obtain ⟨target, -, hl⟩ := List.mem_flatMap.mp hl
    obtain ⟨start, htidy⟩ := tidy_journalBelow m q s hcache target
    exact ⟨_, htidy.located l hl⟩
  · have horderly : Orderly (m.journal q s).lookups := by
      rw [lookups_journal]
      choose start htidy using tidy_journalBelow m q s hcache
      refine orderly_flatMap_of_tidy ?_ fun target _ => htidy target
      have hplaces : (((s.targets 0).zipIdx).map Prod.snd).Pairwise (· < ·) := by
        rw [List.zipIdx_map_snd]
        exact List.pairwise_lt_range'
      refine (List.pairwise_map.mp hplaces).imp fun hlt heq => ?_
      exact Nat.ne_of_lt hlt (congrArg Frame.part heq)
    exact horderly front l back h

/-- The first child leaves two states behind that differ by their cursors alone: the second child is
looked up from both, the second time with a hit. -/
theorem search_lookups_justified_equal_bindings :
    let n : Node := .addChildren (.ofType "root") [.ofType "a", .ofType "b"]
    let m : Matcher := { traced := true }
    let q : Query := .container .unordered [.leaf {}, .leaf {}]
    m.config.replayCache = true ∧ ∃ front l, (m.journal q (.ofNode n)).lookups = front ++ [l] ∧
      l.hit ∧ l.mode = .unordered ∧ 0 < l.child ∧
      ∃ e ∈ front, e.table = l.table ∧ e.before.bindings = l.before.bindings := by
  intro n m q
  have hlast : (m.journal q (.ofNode n)).lookups.getLast?.map Lookup.hit = some true := by
    let scene := m.scene (.ofNode n) (.ofTree n.places)
    let s := State.initial scene.tree
    let stage := scene.stage .unordered s true
    let visits (i : Nat) (running : Journal State) := (stage.offered running).flatMapAfter
      (fun earlier before =>
        scene.visit stage .unordered [⟨0, s⟩] i (.leaf {}) (earlier, before)) []
    have hlookups : (m.journal q (.ofNode n)).lookups =
        (visits 1 (visits 0 (.ofList [s])).distinct).lookups := by
      rw [lookups_journal, Subject.targets_ofNode]
      simp only [List.zipIdx_singleton, List.flatMap_singleton, journalBelow, Subject.tree?_ofNode]
      exact congrArg (List.filterMap Note.lookup?) (Search.notes_distinct _)
    have hnodup : (visits 0 (.ofList [s])).items.Nodup := by
      decide +kernel
    rw [hlookups, Search.distinct_eq_self hnodup]
    decide +kernel
  obtain ⟨l, hl, hhit⟩ := Option.map_eq_some_iff.mp hlast
  obtain ⟨front, hfront⟩ := List.getLast?_eq_some_iff.mp hl
  have hjustified := ((search_lookups_justified m q (.ofNode n) rfl).2 front l [] hfront).2
  obtain ⟨hmode, hchild⟩ := hjustified.later_child hhit
  exact ⟨rfl, front, l, hfront, hhit, hmode, hchild, (hjustified.hit_iff hmode).mp hhit⟩

end Matcher

end TreeQuery
