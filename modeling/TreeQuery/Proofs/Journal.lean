import TreeQuery.Proofs.MappedNotes

/-! Runs with a journal: of each look-up it says which evaluation of a container makes it, for which
of the children, and which running state is offered to that child. Nothing is kept in memos; a
look-up is a hit if the child has been started from the same state before. Once the notes are
reduced to events, a run with a journal is the run that keeps memos. -/

namespace TreeQuery

/-- A step from an evaluation to one that is part of it: to which part, and where it starts. -/
structure Frame where
  part : Nat
  start : State
deriving DecidableEq

/-- The steps that lead to an evaluation, the last one first. -/
abbrev Route := List Frame

structure Lookup where
  /-- Leads to the evaluation of the container. -/
  route : Route
  mode : Mode
  child : Nat
  query : Query
  /-- The running state that is offered to the child. -/
  before : State
  hit : Bool

inductive Note where
  | lookup (l : Lookup)
  | other (event : Event)

namespace Note

def event : Note → Event
  | lookup l => .lookup l.query l.hit
  | other e => e

def lookup? : Note → Option Lookup
  | lookup l => some l
  | other _ => none

end Note

abbrev Journal (α : Type) := Search Note α

def Search.lookups {α : Type} (run : Journal α) : List Lookup := run.notes.filterMap Note.lookup?

theorem Search.mapNotes_event_other {α : Type} (s : Search Event α) :
    (s.mapNotes Note.other).mapNotes Note.event = s := by
  induction s with
  | stop => rfl
  | note e rest ih => exact congrArg (note e) (funext ih)
  | yield a rest ih => exact congrArg (yield a) (funext ih)

/-- How a container that requires all its children goes on with one of them. -/
structure Stage where
  /-- Which running states are offered to the child. -/
  offers : State → Bool := fun _ => true
  key : State → State := id
  emit : State → State → Option State

namespace Stage

variable {ε δ : Type} (stage : Stage) (wanted : Bool) (lookup : State → Bool → ε)
  (run : State → Search ε State) (running : Search ε State)

def offered : Search ε State := running.filterMap fun s => if stage.offers s then some s else none

def pass : Search ε State :=
  ((stage.offered running).flatMapAfter
    (.lookUp wanted lookup stage.key run stage.emit) []).distinct

theorem mapNotes_pass (g : ε → δ) :
    (stage.pass wanted lookup run running).mapNotes g =
      stage.pass wanted (fun s hit => g (lookup s hit)) (fun s => (run s).mapNotes g)
        (running.mapNotes g) := by
  simp only [pass, offered, Search.mapNotes_distinct, Search.mapNotes_flatMapAfter,
    Search.mapNotes_lookUp, Search.mapNotes_filterMap]

theorem items_offered : (stage.offered running).items = running.items.filter stage.offers := by
  rw [offered, Search.items_filterMap, ← List.filterMap_eq_filter]
  rfl

variable {stage wanted lookup run running}

theorem exists_of_mem_pass {r : State} (h : r ∈ (stage.pass wanted lookup run running).items) :
    ∃ before ∈ running.items, ∃ found ∈ (run (stage.key before)).items,
      stage.emit before found = some r := by
  rw [pass, Search.items_distinct, List.mem_eraseDups,
    Search.items_flatMapAfter fun _ before => Search.items_lookUp .., items_offered] at h
  obtain ⟨before, hb, hr⟩ := List.mem_flatMap.mp h
  exact ⟨before, (List.mem_filter.mp hb).1, List.mem_filterMap.mp hr⟩

end Stage

/-- A query made ready for a run with a journal. -/
structure JournalPlan where
  query : Query
  run : Route → State → Journal State

namespace Scene

open Search

variable (scene : Scene)

/-- The stage of a child in a container that starts at `s`. -/
def stage (mode : Mode) (s : State) (nextOnly : Bool) : Stage :=
  match mode, nextOnly with
  | .unordered, _ =>
    { key := (·.startAt s), emit := fun before found => some (found.notBefore scene.tree before) }
  | .exact, false => { emit := fun _ found => some (found.align scene.tree) }
  | .exact, true =>
    { offers := fun s => s.cursor.isSome
      emit := fun before found =>
        let found := found.align scene.tree
        if found.cursor = before.cursor.bind scene.tree.directNeighbor? then some found else none }
  | _, _ => { emit := fun _ found => some found }

/-- What is left at the end of a container. Its last child ends at a sibling if `closed`. -/
def finish {ε : Type} (mode : Mode) (closed : Bool) (running : Search ε State) : Search ε State :=
  if mode = .exact && closed then
    running.filterMap fun found => if found.cursor.isNone then some found else none
  else running

def journalCandidate (f : Filter) (captures : Bool) (nested : Route → State → Journal State)
    (route : Route) (s : State) (id : Nat) : Journal State :=
  let accepted := scene.accepts f s id
  .noteIf scene.traced
    (.other (.candidate f (scene.type (scene.tree.node id)) (scene.tree.path id) accepted)) fun _ =>
      if accepted then
        let start := s.enter scene.tree f.capture id
        let found := (nested (⟨0, start⟩ :: route) start).map State.bindings
        let found := if captures then found.distinct else found.first
        found.map (s.past scene.tree id).withBindings
      else .stop

def journalSingle (f : Filter) (captures : Bool) (nested : Route → State → Journal State)
    (route : Route) (s : State) : Journal State :=
  ((scene.candidates f s).mapNotes .other).flatMap
    (scene.journalCandidate f captures nested route s)

/-- The children from the one at `i` on. The one before it ends at a sibling if `closed`. -/
def journalAll (mode : Mode) (route : Route) (s : State) :
    (i : Nat) → (closed : Bool) → List JournalPlan → Journal State → Journal State
  | _, closed, [], running => finish mode closed running
  | i, closed, child :: rest, running =>
    journalAll mode route s (i + 1) child.query.isPrimitive rest <|
      (scene.stage mode s (closed && child.query.isSingle)).pass scene.traced
        (fun before hit => .lookup ⟨route, mode, i, child.query, before, hit⟩)
        (fun start => child.run (⟨i, start⟩ :: route) start) running

def journalAny (route : Route) (s : State) :
    (i : Nat) → List JournalPlan → Journal State → Journal State
  | _, [], found => found
  | i, child :: rest, found =>
    journalAny route s (i + 1) rest
      (widen s found fun seed => child.run (⟨i, seed⟩ :: route) seed)

def journalContainer (mode : Mode) (children : List JournalPlan) (route : Route) (s : State) :
    Journal State :=
  if mode.requiresAll then scene.journalAll mode route s 0 true children (.ofList [s])
  else if children.isEmpty then .ofList [s]
  else (journalAny route s 0 children .stop).orElse (if mode = .optional then some s else none)

mutual

def journalPlan : Query → JournalPlan
  | .single f nested =>
    let query := Query.single f nested
    { query, run := scene.journalSingle f query.hasCaptures (journalPlan nested).run }
  | .container mode children =>
    { query := .container mode children
      run := scene.journalContainer mode (journalPlans children) }

def journalPlans : List Query → List JournalPlan
  | [] => []
  | q :: qs => journalPlan q :: journalPlans qs

end

/-- The evaluation of a query, at the end of a route, with a journal. -/
def journal (q : Query) (route : Route) (s : State) : Journal State :=
  (scene.journalPlan q).run route s

/-- The evaluation of a query as the part at `i` of another one. -/
def journalPart (q : Query) (route : Route) (i : Nat) (start : State) : Journal State :=
  scene.journal q (⟨i, start⟩ :: route) start

theorem journalPlans_eq_map (qs : List Query) :
    scene.journalPlans qs = qs.map scene.journalPlan := by
  induction qs with
  | nil => rfl
  | cons q qs ih => rw [journalPlans, ih, List.map_cons]

theorem journalPlan_query (q : Query) : (scene.journalPlan q).query = q := by
  cases q <;> rw [journalPlan]

/-- Goes on with one more child of a container that starts at `s`. -/
def advanceBy (mode : Mode) (s : State) (progress : Progress) (child : Plan) : Progress where
  running :=
    (scene.stage mode s (progress.closed && child.query.isSingle)).pass scene.traced
      (fun _ => .lookup child.query) child.run progress.running
  closed := child.query.isPrimitive

theorem offered_of_forall {ε : Type} {stage : Stage} (h : stage.offers = fun _ => true)
    (running : Search ε State) : stage.offered running = running := by
  simp only [Stage.offered, h, if_true, filterMap_some]

section Memoized

variable {scene : Scene} {mode : Mode} {s : State} (hmemoize : scene.memoize = true)

include hmemoize

/-- No memo is needed to tell what a pass finds and when. -/
theorem pass_eq_distinct_step (stage : Stage) (child : Plan) (running : States) :
    stage.pass scene.traced (fun _ => .lookup child.query) child.run running =
      (scene.step child stage.key stage.emit (stage.offered running)).distinct := by
  have hempty : Memo.Knows child.run (([] : List State).map stage.key) ∅ := Memo.knows_empty
  rw [step, if_pos hmemoize, flatMapMemo_eq_flatMapAfter _ _ _ _ hempty]
  rfl

theorem advanceBy_exact (progress : Progress) (child : Plan) :
    scene.advanceBy .exact s progress child = scene.advance progress child := by
  rw [advanceBy, pass_eq_distinct_step hmemoize, advance]
  cases progress.closed && child.query.isSingle with
  | false => rw [offered_of_forall rfl]; rfl
  | true => rfl

theorem running_foldl_advanceBy (h : mode = .ordered ∨ mode = .unordered) (children : List Plan) :
    (children.foldl (scene.advanceBy mode s) { running := once s }).running =
      scene.container mode children s := by
  rcases h with rfl | rfl
  all_goals
    refine (List.foldl_hom Progress.running fun progress child => ?_).symm
    rw [advanceBy, pass_eq_distinct_step hmemoize, offered_of_forall rfl]
    rfl

/-- A container that requires all its children, as one pass for each child. -/
theorem evaluate_eq_finish (hmode : mode.requiresAll) (qs : List Query) (s : State) :
    scene.evaluate (.container mode qs) s =
      let last := (qs.map scene.plan).foldl (scene.advanceBy mode s) { running := once s }
      finish mode last.closed last.running := by
  rw [evaluate, plan, plans_eq_map]
  cases mode with
  | ordered => exact (running_foldl_advanceBy hmemoize (.inl rfl) _).symm
  | unordered => exact (running_foldl_advanceBy hmemoize (.inr rfl) _).symm
  | exact =>
    have hadvance : scene.advanceBy .exact s = scene.advance :=
      funext fun progress => funext (advanceBy_exact hmemoize progress)
    rw [hadvance]
    rfl
  | any | optional => simp [Mode.requiresAll] at hmode

end Memoized

theorem mapNotes_finish {ε δ : Type} (g : ε → δ) (mode : Mode) (closed : Bool)
    (running : Search ε State) :
    (finish mode closed running).mapNotes g = finish mode closed (running.mapNotes g) := by
  rw [finish, finish]
  split
  · exact mapNotes_filterMap g _ running
  · rfl

section Erasure

variable {scene : Scene} {qs : List Query}
  (hqs : ∀ q ∈ qs, ∀ route s,
    ((scene.journalPlan q).run route s).mapNotes Note.event = (scene.plan q).run s)

include hqs

theorem mapNotes_journalAll (mode : Mode) (route : Route) (s : State) (i : Nat) (closed : Bool)
    (running : Journal State) :
    (scene.journalAll mode route s i closed (qs.map scene.journalPlan) running).mapNotes
        Note.event =
      let last := (qs.map scene.plan).foldl (scene.advanceBy mode s)
        { running := running.mapNotes Note.event, closed }
      finish mode last.closed last.running := by
  induction qs generalizing i closed running with
  | nil => exact mapNotes_finish Note.event mode closed running
  | cons q qs ih =>
    obtain ⟨hq, hqs⟩ := List.forall_mem_cons.mp hqs
    rw [List.map_cons, journalAll, ih hqs, Stage.mapNotes_pass]
    simp only [hq, journalPlan_query, List.map_cons, List.foldl_cons, advanceBy, plan_query]
    rfl

theorem mapNotes_journalAny (route : Route) (s : State) (i : Nat) (found : Journal State) :
    (journalAny route s i (qs.map scene.journalPlan) found).mapNotes Note.event =
      (qs.map scene.evaluate).foldl (widen s) (found.mapNotes Note.event) := by
  induction qs generalizing i found with
  | nil => rfl
  | cons q qs ih =>
    obtain ⟨hq, hqs⟩ := List.forall_mem_cons.mp hqs
    rw [List.map_cons, journalAny, ih hqs, mapNotes_widen, List.map_cons, List.foldl_cons]
    simp only [hq]
    rfl

end Erasure

theorem mapNotes_journalSingle {scene : Scene} {nested : Query}
    (hnested : ∀ route s,
      ((scene.journalPlan nested).run route s).mapNotes Note.event = (scene.plan nested).run s)
    (f : Filter) (captures : Bool) (route : Route) (s : State) :
    (scene.journalSingle f captures (scene.journalPlan nested).run route s).mapNotes Note.event =
      scene.single f captures (scene.plan nested).run s := by
  rw [journalSingle, mapNotes_flatMap, mapNotes_event_other, single]
  congr 1
  funext id
  rw [journalCandidate, mapNotes_noteIf]
  congr 1
  funext _
  cases scene.accepts f s id with
  | false => rfl
  | true =>
    simp only [if_true, mapNotes_map]
    cases captures with
    | false => simp only [Bool.false_eq_true, if_false, mapNotes_first, mapNotes_map, hnested]
    | true => simp only [if_true, mapNotes_distinct, mapNotes_map, hnested]

/-- With its notes reduced to events, a run with a journal is the run that keeps memos. -/
theorem mapNotes_journal {scene : Scene} (hmemoize : scene.memoize = true) (q : Query)
    (route : Route) (s : State) :
    (scene.journal q route s).mapNotes Note.event = scene.evaluate q s := by
  induction q generalizing route s with
  | single f nested ih =>
    rw [journal, journalPlan, evaluate, plan]
    exact mapNotes_journalSingle ih f _ route s
  | container mode qs ih =>
    rw [journal, journalPlan, journalPlans_eq_map]
    change (scene.journalContainer mode _ route s).mapNotes Note.event = _
    rw [journalContainer]
    cases hmode : mode.requiresAll with
    | true =>
      rw [if_pos rfl, mapNotes_journalAll ih, evaluate_eq_finish hmemoize hmode, mapNotes_ofList]
      rfl
    | false =>
      rw [if_neg Bool.false_ne_true, List.isEmpty_map]
      cases qs with
      | nil =>
        rw [evaluate_eq_any scene hmode]
        rfl
      | cons q qs =>
        rw [List.isEmpty_cons, if_neg Bool.false_ne_true, mapNotes_orElse, mapNotes_journalAny ih,
          evaluate_any_eq scene hmode (List.cons_ne_nil q qs)]
        rfl

end Scene

namespace Matcher

/-- The search below one target, given by its node and its place among the targets. -/
def journalBelow (m : Matcher) (q : Query) (s : Subject) (target : Nat × Nat) : Journal State :=
  match s.tree? target.1 with
  | none => .stop
  | some t =>
    let tree := LinkedTree.ofTree t
    (m.scene s tree).journal q [⟨target.2, .initial tree⟩] (.initial tree)

def journal (m : Matcher) (q : Query) (s : Subject) : Journal Bindings :=
  let found :=
    ((Search.ofList (s.targets 0).zipIdx).flatMap (m.journalBelow q s)).map State.bindings
  found.distinct.announce m.traced fun b => .other (foundEvent s b)

theorem mapNotes_journalBelow {m : Matcher} (hcache : m.config.replayCache = true) (q : Query)
    (s : Subject) (target : Nat × Nat) :
    (m.journalBelow q s target).mapNotes Note.event = m.searchBelow q s target.1 := by
  rw [journalBelow, searchBelow]
  cases s.tree? target.1 with
  | none => rfl
  | some t => exact Scene.mapNotes_journal hcache q _ _

theorem mapNotes_journal {m : Matcher} (hcache : m.config.replayCache = true) (q : Query)
    (s : Subject) : (m.journal q s).mapNotes Note.event = m.search q s := by
  rw [journal, search, Search.mapNotes_announce, Search.mapNotes_distinct, Search.mapNotes_map,
    Search.mapNotes_flatMap, Search.mapNotes_ofList, ← (s.targets 0).zipIdx_map_fst 0,
    Search.flatMap_ofList_map]
  simp only [mapNotes_journalBelow hcache, List.zipIdx_map_fst]
  rfl

end Matcher

end TreeQuery
