import TreeQuery.Proofs.Building
import TreeQuery.Proofs.FirstOccurrences

/-! Pulls come to an end. A stream below some level gives the first state of the list that it hands
over, and what is left of it hands over the rest: by induction on the level, since all that a pull
may go into is below it, and for the streams that go round on the list of what feeds them. -/

namespace TreeQuery

namespace Cells

section Eventually

variable {α β : Type} {f : Nat → Outcome α} {o : Outcome α}

def Eventually (f : Nat → Outcome α) (o : Outcome α) : Prop :=
  ∃ enough, ∀ fuel, enough ≤ fuel → f fuel = o

theorem Eventually.const (o : Outcome α) : Eventually (fun _ => o) o := ⟨0, fun _ _ => rfl⟩

theorem Eventually.succ (h : Eventually (fun fuel => f (fuel + 1)) o) : Eventually f o := by
  obtain ⟨enough, henough⟩ := h
  refine ⟨enough + 1, fun fuel hfuel => ?_⟩
  obtain ⟨fuel, rfl⟩ := Nat.exists_eq_add_of_le' (Nat.le_of_add_left_le hfuel)
  exact henough fuel (by omega)

theorem Eventually.bind {a : α} {k : Nat → α → Outcome β} {o : Outcome β}
    (h : Eventually f (.finished a)) (h' : Eventually (fun fuel => k fuel a) o) :
    Eventually (fun fuel => (f fuel).bind (k fuel)) o := by
  obtain ⟨enough, henough⟩ := h
  obtain ⟨enough', henough'⟩ := h'
  refine ⟨max enough enough', fun fuel hfuel => ?_⟩
  change (f fuel).bind (k fuel) = o
  rw [henough fuel (by omega)]
  exact henough' fuel (by omega)

theorem Eventually.failed_bind {fault : Fault} (h : Eventually f (.failed fault))
    (k : Nat → α → Outcome β) :
    Eventually (fun fuel => (f fuel).bind (k fuel)) (.failed fault) := by
  obtain ⟨enough, henough⟩ := h
  refine ⟨enough, fun fuel hfuel => ?_⟩
  change (f fuel).bind (k fuel) = .failed fault
  rw [henough fuel hfuel]
  rfl

theorem Eventually.map (h : Eventually f o) (k : α → Outcome β) :
    Eventually (fun fuel => (f fuel).bind k) (o.bind k) := by
  obtain ⟨enough, henough⟩ := h
  exact ⟨enough, fun fuel hfuel => congrArg (Outcome.bind · k) (henough fuel hfuel)⟩

end Eventually

variable {scene : Scene} {t : Tree Nat} {w w' : World} {h h' : Heap} {a b : Nat}
  {stream stream' source : Stream} {l : List State}

/-- A pull gives the first of the list, and leaves what will give the others. -/
def Serves (scene : Scene) (w : World) (h : Heap) (b : Nat) (stream : Stream) (l : List State) :
    Prop :=
  ∃ (w' : World) (rest : Stream) (h' : Heap),
    Eventually (fun fuel => pull scene fuel stream h) (.finished ⟨l.head?, rest, h'⟩) ∧
      Evolves w h w' h' ∧ Keeps scene w' h' ∧ Yields scene w' b rest l.tail

/-- Every stream below that level hands over its list. -/
def Served (scene : Scene) (a : Nat) : Prop :=
  ∀ {w : World} {h : Heap} {stream : Stream} {l : List State}, Keeps scene w h → Free w h a →
    Yields scene w a stream l → Serves scene w h a stream l

/-- A pull that goes on as another one does. -/
theorem Serves.of_pull (hserves : Serves scene w' h' b stream' l) (hevolves : Evolves w h w' h')
    (hpull : ∀ o, Eventually (fun fuel => pull scene fuel stream' h') o →
      Eventually (fun fuel => pull scene fuel stream h) o) : Serves scene w h b stream l := by
  obtain ⟨w'', rest, h'', hpull', hevolves', hkeeps, hyields⟩ := hserves
  exact ⟨w'', rest, h'', hpull _ hpull', hevolves.trans hevolves', hkeeps, hyields⟩

section Calls

variable (hscene : scene.tree = .ofTree t) (hkeeps : Keeps scene w h) {s : State}

include hscene

theorem placed_of_mem_results {r : State} {q : Query} (hs : s.Placed scene.tree)
    (hr : r ∈ scene.results q s) : r.Placed scene.tree :=
  hs.of_advances (advances_of_mem_results hscene q hs.wellScoped.advances hr)

theorem evaluate_of_placed (hs : s.Placed scene.tree) (q : Query) (h : Heap) :
    evaluate scene q s h = .finished (build scene q s h) :=
  if_pos (inside_of_placed hscene hs)

/-- What a single query makes of what is found below a candidate that it accepts. -/
theorem yields_atCandidate {f : Filter} {nested : Query} {id : Nat} (captures : Bool)
    (hrank : nested.rank + 2 ≤ a) (hid : id < t.size)
    (haccepts : scene.accepts f s id)
    (hstream : Yields scene w nested.rank stream
      (scene.results nested (s.enter scene.tree f.capture id))) :
    Yields scene w a (atCandidate scene captures s id stream)
      (taken scene f nested captures s id) := by
  have henter : (s.enter scene.tree f.capture id).Placed scene.tree := by
    rw [hscene]
    exact State.placed_enter hid f.capture
  have hbound := hstream.filterMap
    (fun r => some ((s.past scene.tree id).withBindings r.bindings)) (Nat.lt_succ_self _)
    fun r hr => placed_of_mem_results hscene henter hr
  rw [List.filterMap_eq_map'] at hbound
  rw [taken, if_pos haccepts, Scene.below, atCandidate]
  cases captures with
  | true =>
    have hinjective (b c : Bindings)
        (hbc : (s.past scene.tree id).withBindings b = (s.past scene.tree id).withBindings c) :
        b = c :=
      congrArg State.bindings hbc
    simp only [if_true]
    rw [← eraseDups_map hinjective, List.map_map]
    exact hbound.distinct_empty (by omega)
  | false =>
    simp only [Bool.false_eq_true, if_false]
    rw [← List.map_take, List.map_map, List.map_take]
    exact .first (by omega) hbound

include hkeeps

/-- A table is held only while its entry is built, which adds cells and pulls nothing. -/
theorem Call.exists_ask {call : Call} (htables : ∀ t, h.tableHeld t = false)
    (hready : call.Ready w) (hkey : (call.key s).Placed scene.tree) :
    ∃ made, call.ask scene s h = .finished made ∧
      Built scene w h (call.query.rank + 2) made (call.results scene s) := by
  have hplaced : ∀ r ∈ scene.results call.query (call.key s), r.Placed scene.tree :=
    fun r hr => placed_of_mem_results hscene hkey hr
  unfold Call.ask
  cases htable : call.table with
  | none =>
    obtain ⟨w', hevolves, hkeeps', hyields⟩ := built hscene hkey hkeeps call.query
    simp only [evaluate_of_placed hscene hkey, Outcome.bind]
    exact ⟨_, rfl, w', hevolves, hkeeps', .filterMap (call.emit s) (by omega) hyields hplaced⟩
  | some t =>
    have hquery := hready t htable
    obtain ⟨table, ht⟩ := hkeeps.exists_table hquery
    have hserves := hkeeps.table ht hquery
    have hfree : table.held = false := by
      have hheld := htables t
      rwa [Heap.tableHeld, ht] at hheld
    simp only [ht, hfree, Bool.false_eq_true, if_false]
    cases hentry : table.entries[call.key s]? with
    | some b =>
      obtain ⟨p, hp, hcontents, hlevel⟩ := hserves _ b hentry
      have hreader : Yields scene w (call.query.rank + 1) (.reader b 0) (p.contents.drop 0) :=
        .reader hp (by omega) (Nat.zero_le _)
      rw [List.drop_zero, hcontents] at hreader
      exact ⟨_, rfl, w, .noteIf _ _, hkeeps.noteIf _ _,
        .filterMap (call.emit s) (Nat.lt_succ_self _) hreader hplaced⟩
    | none =>
      let noted := h.noteIf scene.traced (.lookup call.query false)
      let held := noted.setTable t { table with held := true }
      have hnoted : Evolves w h w noted := .noteIf _ _
      have hheld : Keeps scene w held := by
        refine (hkeeps.noteIf _ _).setTable fun q hq => ?_
        obtain rfl : call.query = q := Option.some.inj (hquery.symm.trans hq)
        exact hserves
      let made := build scene call.query (call.key s) held
      let b := (made.2.newBuffer made.1).1
      obtain ⟨w', hevolves, hkeeps', p, hp, hcontents, hlevel⟩ :=
        (built hscene hkey hheld call.query).promised
      have hentries : Table.Serves scene w'
          { entries := table.entries.insert (call.key s) b } call.query := by
        intro key c hc
        simp only [Std.HashMap.getElem?_insert] at hc
        split at hc
        next heq =>
          obtain rfl : b = c := Option.some.inj hc
          obtain rfl : call.key s = key := beq_iff_eq.mp heq
          exact ⟨p, hp, hcontents, hlevel⟩
        next => exact hserves.extend hevolves.world key c hc
      have hput := hkeeps'.setTable (t := t) fun q hq => by
        obtain rfl : call.query = q :=
          Option.some.inj ((hevolves.world.table hquery).symm.trans hq)
        exact hentries
      have hreader : Yields scene w' (call.query.rank + 1) (.reader b 0) (p.contents.drop 0) :=
        .reader hp (by omega) (Nat.zero_le _)
      rw [List.drop_zero, hcontents] at hreader
      simp only [evaluate_of_placed hscene hkey, Outcome.bind]
      exact ⟨_, rfl, w',
        hnoted.trans (hevolves.holdTable ((hnoted.tableHeld t).trans (htables t)) rfl), hput,
        .filterMap (call.emit s) (Nat.lt_succ_self _) hreader hplaced⟩

end Calls

section Streams

variable (ha : Served scene a) (hab : a < b)

include ha hab

theorem serves_chain {front back : Stream} {m : List State} (hkeeps : Keeps scene w h)
    (hfree : Free w h b) (hfront : Yields scene w a front l) (hback : Yields scene w a back m) :
    Serves scene w h b (.chain front back) (l ++ m) := by
  obtain ⟨w', rest, h', hpull, hevolves, hkeeps', hrest⟩ :=
    ha hkeeps (hfree.mono (Nat.le_of_lt hab)) hfront
  have hback' := hback.extend hevolves.world
  cases l with
  | cons s l =>
    exact ⟨w', .chain rest back, h', .succ (hpull.bind (.const _)), hevolves, hkeeps',
      .chain hab hrest hback'⟩
  | nil =>
    have hfree' := (hfree.mono (Nat.le_of_lt hab)).evolve hkeeps hevolves
    obtain ⟨w'', rest', h'', hpull', hevolves', hkeeps'', hrest'⟩ := ha hkeeps' hfree' hback'
    exact ⟨w'', rest', h'', .succ (hpull.bind hpull'), hevolves.trans hevolves', hkeeps'',
      hrest'.mono (Nat.le_of_lt hab)⟩

theorem serves_orElse (fallback : Option State) (hkeeps : Keeps scene w h) (hfree : Free w h b)
    (hsource : Yields scene w a source l) :
    Serves scene w h b (.orElse fallback source) (if l.isEmpty then fallback.toList else l) := by
  obtain ⟨w', rest, h', hpull, hevolves, hkeeps', hrest⟩ :=
    ha hkeeps (hfree.mono (Nat.le_of_lt hab)) hsource
  have hnone := Yields.orElse none hab hrest
  cases l with
  | cons s l =>
    have htail : (if l.isEmpty then none.toList else l) = l := by cases l <;> rfl
    rw [List.tail_cons, htail] at hnone
    exact ⟨w', .orElse none rest, h', .succ (hpull.bind (.const _)), hevolves, hkeeps', hnone⟩
  | nil =>
    refine ⟨w', .orElse none rest, h', .succ (hpull.bind ?_), hevolves, hkeeps', ?_⟩
    · cases fallback <;> exact .const _
    · cases fallback <;> exact hnone

theorem serves_first (hkeeps : Keeps scene w h) (hfree : Free w h b)
    (hsource : Yields scene w a source l) : Serves scene w h b (.first source) (l.take 1) := by
  obtain ⟨w', rest, h', hpull, hevolves, hkeeps', _⟩ :=
    ha hkeeps (hfree.mono (Nat.le_of_lt hab)) hsource
  refine ⟨w', .done, h', .succ (hpull.bind ?_), hevolves, hkeeps', ?_⟩
  · cases l <;> exact .const _
  · cases l <;> exact .done

theorem serves_filterMap (f : State → Option State) (hscene : scene.tree = .ofTree t)
    (hkeeps : Keeps scene w h) (hfree : Free w h b) (hsource : Yields scene w a source l)
    (hplaced : ∀ s ∈ l, s.Placed scene.tree) :
    Serves scene w h b (.filterMap f source) (l.filterMap f) := by
  induction l generalizing w h source with
  | nil =>
    obtain ⟨w', rest, h', hpull, hevolves, hkeeps', hrest⟩ :=
      ha hkeeps (hfree.mono (Nat.le_of_lt hab)) hsource
    exact ⟨w', .filterMap f rest, h', .succ (hpull.bind (.const _)), hevolves, hkeeps',
      .filterMap f hab hrest hplaced⟩
  | cons s l ih =>
    obtain ⟨w', rest, h', hpull, hevolves, hkeeps', hrest⟩ :=
      ha hkeeps (hfree.mono (Nat.le_of_lt hab)) hsource
    obtain ⟨hs, hl⟩ := List.forall_mem_cons.mp hplaced
    have hinside := inside_of_placed hscene hs
    cases hf : f s with
    | some r =>
      have hpull' : Eventually (fun fuel => pull scene fuel (.filterMap f source) h)
          (.finished ⟨some r, .filterMap f rest, h'⟩) := by
        refine .succ (hpull.bind ?_)
        simp only [List.head?_cons, hinside, if_true, hf]
        exact .const _
      rw [List.filterMap_cons_some hf]
      exact ⟨w', _, h', hpull', hevolves, hkeeps', .filterMap f hab hrest hl⟩
    | none =>
      rw [List.filterMap_cons_none hf]
      refine (ih hkeeps' (hfree.evolve hkeeps hevolves) hrest hl).of_pull hevolves fun o ho => ?_
      refine .succ (hpull.bind ?_)
      simp only [List.head?_cons, hinside, if_true, hf]
      exact ho

theorem serves_distinct (seen : Std.HashSet State) (hkeeps : Keeps scene w h)
    (hfree : Free w h b) (hsource : Yields scene w a source l) :
    Serves scene w h b (.distinct seen source)
      (l.filter fun s => !seen.contains s).eraseDups := by
  induction l generalizing w h source with
  | nil =>
    obtain ⟨w', rest, h', hpull, hevolves, hkeeps', hrest⟩ :=
      ha hkeeps (hfree.mono (Nat.le_of_lt hab)) hsource
    exact ⟨w', .distinct seen rest, h', .succ (hpull.bind (.const _)), hevolves, hkeeps',
      .distinct seen hab hrest⟩
  | cons s l ih =>
    obtain ⟨w', rest, h', hpull, hevolves, hkeeps', hrest⟩ :=
      ha hkeeps (hfree.mono (Nat.le_of_lt hab)) hsource
    cases hs : seen.contains s with
    | true =>
      rw [List.filter_cons_of_neg (by simp [hs])]
      refine (ih hkeeps' (hfree.evolve hkeeps hevolves) hrest).of_pull hevolves fun o ho => ?_
      refine .succ (hpull.bind ?_)
      simp only [List.head?_cons, hs, if_true]
      exact ho
    | false =>
      have hpull' : Eventually (fun fuel => pull scene fuel (.distinct seen source) h)
          (.finished ⟨some s, .distinct (seen.insert s) rest, h'⟩) := by
        refine .succ (hpull.bind ?_)
        simp only [List.head?_cons, hs, Bool.false_eq_true, if_false]
        exact .const _
      rw [Search.eraseDups_filter_cons hs]
      exact ⟨w', _, h', hpull', hevolves, hkeeps', .distinct (seen.insert s) hab hrest⟩

/-- More of what was found from the last item. -/
theorem serves_flatMap_front {call : Call} {front : Stream} {r : State} {m : List State}
    (hkeeps : Keeps scene w h) (hfree : Free w h b) (hfront : Yields scene w a front (r :: l))
    (hsource : Yields scene w a source m) (hready : call.Ready w) (hrank : call.query.rank + 2 ≤ a)
    (hplaced : ∀ s ∈ m, s.Placed scene.tree ∧ (call.key s).Placed scene.tree) :
    Serves scene w h b (.flatMap call front source)
      ((r :: l) ++ m.flatMap (call.results scene)) := by
  obtain ⟨w', rest, h', hpull, hevolves, hkeeps', hrest⟩ :=
    ha hkeeps (hfree.mono (Nat.le_of_lt hab)) hfront
  exact ⟨w', .flatMap call rest source, h', .succ (hpull.bind (.const _)), hevolves, hkeeps',
    .flatMap hab hrest (hsource.extend hevolves.world) (hready.extend hevolves.world) hrank hplaced⟩

theorem serves_flatMap {call : Call} {front : Stream} {m : List State}
    (hscene : scene.tree = .ofTree t) (hkeeps : Keeps scene w h) (hfree : Free w h b)
    (hfront : Yields scene w a front l) (hsource : Yields scene w a source m)
    (hready : call.Ready w) (hrank : call.query.rank + 2 ≤ a)
    (hplaced : ∀ s ∈ m, s.Placed scene.tree ∧ (call.key s).Placed scene.tree) :
    Serves scene w h b (.flatMap call front source) (l ++ m.flatMap (call.results scene)) := by
  induction m generalizing w h front source l with
  | nil =>
    cases l with
    | cons r l =>
      exact serves_flatMap_front ha hab hkeeps hfree hfront hsource hready hrank hplaced
    | nil =>
      obtain ⟨w₁, _, h₁, hpull₁, hevolves₁, hkeeps₁, _⟩ :=
        ha hkeeps (hfree.mono (Nat.le_of_lt hab)) hfront
      have hfree₁ := hfree.evolve hkeeps hevolves₁
      obtain ⟨w₂, _, h₂, hpull₂, hevolves₂, hkeeps₂, _⟩ :=
        ha hkeeps₁ (hfree₁.mono (Nat.le_of_lt hab)) (hsource.extend hevolves₁.world)
      have hevolves := hevolves₁.trans hevolves₂
      exact ⟨w₂, .flatMap call .done .done, h₂, .succ (hpull₁.bind (hpull₂.bind (.const _))),
        hevolves, hkeeps₂,
        .flatMap hab .done .done (hready.extend hevolves.world) hrank hplaced⟩
  | cons s m ih =>
    cases l with
    | cons r l =>
      exact serves_flatMap_front ha hab hkeeps hfree hfront hsource hready hrank hplaced
    | nil =>
      obtain ⟨w₁, _, h₁, hpull₁, hevolves₁, hkeeps₁, _⟩ :=
        ha hkeeps (hfree.mono (Nat.le_of_lt hab)) hfront
      have hfree₁ := hfree.evolve hkeeps hevolves₁
      obtain ⟨w₂, source', h₂, hpull₂, hevolves₂, hkeeps₂, hsource₂⟩ :=
        ha hkeeps₁ (hfree₁.mono (Nat.le_of_lt hab)) (hsource.extend hevolves₁.world)
      have hfree₂ := hfree₁.evolve hkeeps₁ hevolves₂
      have hevolves := hevolves₁.trans hevolves₂
      have hready₂ := hready.extend hevolves.world
      obtain ⟨⟨hs, hkey⟩, hm⟩ := List.forall_mem_cons.mp hplaced
      obtain ⟨⟨found, h₃⟩, hask, w₃, hevolves₃, hkeeps₃, hfound⟩ :=
        Call.exists_ask hscene hkeeps₂ hfree₂.table hready₂ hkey
      have hrest := ih hkeeps₃ (hfree₂.evolve hkeeps₂ hevolves₃) (hfound.mono hrank)
        (hsource₂.extend hevolves₃.world) (hready₂.extend hevolves₃.world) hm
      refine hrest.of_pull (hevolves.trans hevolves₃) fun o ho => ?_
      refine .succ (hpull₁.bind (hpull₂.bind ?_))
      simp only [List.head?_cons, inside_of_placed hscene hs, if_true, hask, Outcome.bind]
      exact ho

theorem serves_single_front {f : Filter} {nested : Query} {captures : Bool} {s r : State}
    {next : Option Nat} {front : Stream} {ids : List Nat} (hkeeps : Keeps scene w h)
    (hfree : Free w h b) (hfront : Yields scene w a front (r :: l))
    (hwalks : Walks (nextCandidate scene f s) next ids) (hids : ∀ id ∈ ids, id < scene.tree.size)
    (hrank : nested.rank + 2 ≤ a) :
    Serves scene w h b (.single f nested captures s next front)
      ((r :: l) ++ ids.flatMap (taken scene f nested captures s)) := by
  obtain ⟨w', rest, h', hpull, hevolves, hkeeps', hrest⟩ :=
    ha hkeeps (hfree.mono (Nat.le_of_lt hab)) hfront
  exact ⟨w', .single f nested captures s next rest, h', .succ (hpull.bind (.const _)), hevolves,
    hkeeps', .single captures hab hrest hwalks hids hrank⟩

theorem serves_single {f : Filter} {nested : Query} {captures : Bool} {s : State}
    {next : Option Nat} {front : Stream} {ids : List Nat} (hscene : scene.tree = .ofTree t)
    (hkeeps : Keeps scene w h) (hfree : Free w h b) (hfront : Yields scene w a front l)
    (hwalks : Walks (nextCandidate scene f s) next ids) (hids : ∀ id ∈ ids, id < scene.tree.size)
    (hrank : nested.rank + 2 ≤ a) :
    Serves scene w h b (.single f nested captures s next front)
      (l ++ ids.flatMap (taken scene f nested captures s)) := by
  induction ids generalizing w h next front l with
  | nil =>
    cases l with
    | cons r l => exact serves_single_front ha hab hkeeps hfree hfront hwalks hids hrank
    | nil =>
      obtain ⟨w', _, h', hpull, hevolves, hkeeps', _⟩ :=
        ha hkeeps (hfree.mono (Nat.le_of_lt hab)) hfront
      have hnone : next = none := hwalks
      subst hnone
      exact ⟨w', .single f nested captures s none .done, h', .succ (hpull.bind (.const _)),
        hevolves, hkeeps', .single captures hab .done hwalks hids hrank⟩
  | cons id ids ih =>
    cases l with
    | cons r l => exact serves_single_front ha hab hkeeps hfree hfront hwalks hids hrank
    | nil =>
      obtain ⟨w₁, _, h₁, hpull₁, hevolves₁, hkeeps₁, _⟩ :=
        ha hkeeps (hfree.mono (Nat.le_of_lt hab)) hfront
      obtain ⟨rfl, hwalks'⟩ := hwalks
      obtain ⟨hid, hids'⟩ := List.forall_mem_cons.mp hids
      let noted := h₁.noteIf scene.traced (.candidate f (scene.type (scene.tree.node id))
        (scene.tree.path id) (scene.accepts f s id))
      have hevolves' : Evolves w h w₁ noted := hevolves₁.trans (.noteIf _ _)
      have hkeeps' : Keeps scene w₁ noted := hkeeps₁.noteIf _ _
      have hfree' := hfree.evolve hkeeps hevolves'
      cases haccepts : scene.accepts f s id with
      | false =>
        have htaken : taken scene f nested captures s id = [] := by simp [taken, haccepts]
        have hrest := ih hkeeps' hfree' (l := []) .done hwalks' hids'
        rw [List.flatMap_cons, htaken]
        refine hrest.of_pull hevolves' fun o ho => .succ (hpull₁.bind ?_)
        simp only [noted, haccepts] at ho
        simp only [List.head?_nil, hid, if_true, haccepts, Bool.false_eq_true, if_false]
        exact ho
      | true =>
        have hidt : id < t.size := by rwa [hscene, LinkedTree.size_ofTree] at hid
        have henter : (s.enter scene.tree f.capture id).Placed scene.tree := by
          rw [hscene]
          exact State.placed_enter hidt f.capture
        obtain ⟨w₂, hevolves₂, hkeeps₂, hfound⟩ := built hscene henter hkeeps' nested
        have hfront₂ := yields_atCandidate hscene captures hrank hidt haccepts hfound
        have hrest := ih hkeeps₂ (hfree'.evolve hkeeps' hevolves₂) hfront₂ hwalks' hids'
        refine hrest.of_pull (hevolves'.trans hevolves₂) fun o ho => .succ (hpull₁.bind ?_)
        simp only [noted, haccepts] at ho
        simp only [List.head?_nil, hid, if_true, haccepts, evaluate_of_placed hscene henter,
          Outcome.bind]
        exact ho

end Streams

section Readers

variable {c position : Nat} {p : Promise} {buffer : Buffer} {rest : List State}

theorem drop_size_items (hcontents : p.contents = buffer.replay.items.toList ++ rest) :
    p.contents.drop buffer.replay.items.size = rest := by
  rw [hcontents, ← Array.length_toList, List.drop_left]

variable (hkeeps : Keeps scene w h) (hp : w.buffers[c]? = some p) (hlevel : p.level < b)
  (hbuffer : h.buffers[c]? = some buffer) (hheld : buffer.held = false)
  (hcontents : p.contents = buffer.replay.items.toList ++ rest)

include hkeeps hp hlevel hbuffer hheld hcontents

theorem serves_kept (hlt : position < buffer.replay.items.size) :
    Serves scene w h b (.reader c position) (p.contents.drop position) := by
  have hkept := (hkeeps.buffer hbuffer hp).kept
  have hitem := Array.getElem?_eq_getElem hlt
  have hdrop : p.contents.drop position =
      buffer.replay.items[position] :: p.contents.drop (position + 1) := by
    rw [hcontents, List.drop_eq_getElem_cons (by simp; omega), List.getElem_append_left (by simpa)]
    simp
  have hpull : Eventually (fun fuel => pull scene fuel (.reader c position) h)
      (.finished ⟨some buffer.replay.items[position], .reader c (position + 1), h⟩) := by
    refine .succ ?_
    simp only [pull, hbuffer, hheld, Bool.false_eq_true, if_false, hitem]
    exact .const _
  rw [hdrop]
  exact ⟨w, _, h, hpull, .refl w h, hkeeps, .reader hp hlevel (by omega)⟩

theorem serves_exhausted (hsource : buffer.replay.source = none) (hrest : rest = []) :
    Serves scene w h b (.reader c buffer.replay.items.size)
      (p.contents.drop buffer.replay.items.size) := by
  have hkept := (hkeeps.buffer hbuffer hp).kept
  have hitem : buffer.replay.items[buffer.replay.items.size]? = none := by simp
  have hpull : Eventually (fun fuel => pull scene fuel (.reader c buffer.replay.items.size) h)
      (.finished ⟨none, .reader c buffer.replay.items.size, h⟩) := by
    refine .succ ?_
    simp only [pull, hbuffer, hheld, Bool.false_eq_true, if_false, hitem, hsource]
    exact .const _
  have hreader : Yields scene w b (.reader c buffer.replay.items.size)
      (p.contents.drop buffer.replay.items.size) :=
    .reader hp hlevel (Nat.le_of_eq hkept)
  rw [drop_size_items hcontents, hrest] at hreader ⊢
  exact ⟨w, _, h, hpull, .refl w h, hkeeps, hreader⟩

/-- A source only goes into buffers below the level of its own, which is held meanwhile. -/
theorem serves_source (ha : Served scene p.level) (hfree : Free w h b)
    (hsource : buffer.replay.source = some source) (hrest : Yields scene w p.level source rest) :
    Serves scene w h b (.reader c buffer.replay.items.size)
      (p.contents.drop buffer.replay.items.size) := by
  have hitem : buffer.replay.items[buffer.replay.items.size]? = none := by simp
  obtain ⟨w', source', h', hpull, hevolves, hkeeps', hyields⟩ :=
    ha (hkeeps.hold hbuffer) (hfree.hold hp hlevel) hrest
  obtain ⟨p', hp', hsame, hlevel', _⟩ := hevolves.world.buffer hp
  have hkept' := hevolves.kept_eq hkeeps' hbuffer rfl hp'
  have hfreed := hfree.buffer hp hlevel
  rw [← hsame] at hcontents ⊢
  rw [← hlevel'] at hyields
  rw [drop_size_items hcontents]
  cases rest with
  | nil =>
    have hpull' : Eventually (fun fuel => pull scene fuel (.reader c buffer.replay.items.size) h)
        (.finished ⟨none, .reader c buffer.replay.items.size,
          h'.setBuffer c ⟨⟨none, buffer.replay.items⟩, false⟩⟩) := by
      refine .succ ?_
      simp only [pull, hbuffer, hheld, Bool.false_eq_true, if_false, hitem, hsource]
      exact hpull.bind (.const _)
    have hreader : Yields scene w' b (.reader c buffer.replay.items.size)
        (p'.contents.drop buffer.replay.items.size) :=
      .reader hp' (hlevel'.symm ▸ hlevel) (Nat.le_of_eq hkept')
    rw [drop_size_items hcontents] at hreader
    exact ⟨w', _, _, hpull', hevolves.holdBuffer hfreed (.refl w') rfl,
      hkeeps'.exhaust hp' hkept' (hcontents.trans (List.append_nil _)), hreader⟩
  | cons s rest =>
    have hpull' : Eventually (fun fuel => pull scene fuel (.reader c buffer.replay.items.size) h)
        (.finished ⟨some s, .reader c (buffer.replay.items.size + 1),
          h'.setBuffer c ⟨⟨some source', buffer.replay.items.push s⟩, false⟩⟩) := by
      refine .succ ?_
      simp only [pull, hbuffer, hheld, Bool.false_eq_true, if_false, hitem, hsource]
      exact hpull.bind (.const _)
    have hreader : Yields scene (w'.keepItem c) b (.reader c (buffer.replay.items.size + 1))
        (p'.contents.drop (buffer.replay.items.size + 1)) :=
      .reader (p := { p' with kept := p'.kept + 1 }) (World.getElem?_keepItem_self hp')
        (hlevel'.symm ▸ hlevel) (Nat.succ_le_succ (Nat.le_of_eq hkept'))
    rw [← List.drop_drop, drop_size_items hcontents] at hreader
    exact ⟨w'.keepItem c, _, _, hpull',
      hevolves.holdBuffer hfreed (w'.extends_keepItem c) rfl,
      hkeeps'.push hp' hkept' hcontents hyields, hreader⟩

end Readers

/-- A buffer that is free gives the item at the position of the reader, or pulls its source. -/
theorem serves_reader {c position : Nat} {p : Promise} (ha : Served scene p.level)
    (hkeeps : Keeps scene w h) (hfree : Free w h b) (hp : w.buffers[c]? = some p)
    (hlevel : p.level < b) (hposition : position ≤ p.kept) :
    Serves scene w h b (.reader c position) (p.contents.drop position) := by
  obtain ⟨buffer, hbuffer⟩ := hkeeps.exists_buffer hp
  obtain ⟨hkept, hrest⟩ := hkeeps.buffer hbuffer hp
  have hheld : buffer.held = false := by
    have hfreed := hfree.buffer hp hlevel
    rwa [Heap.bufferHeld, hbuffer] at hfreed
  obtain ⟨rest, hcontents, hsource⟩ := hrest hheld
  by_cases hlt : position < buffer.replay.items.size
  · exact serves_kept hkeeps hp hlevel hbuffer hheld hcontents hlt
  · obtain rfl : position = buffer.replay.items.size := by omega
    cases hreplay : buffer.replay.source with
    | none =>
      rw [hreplay] at hsource
      exact serves_exhausted hkeeps hp hlevel hbuffer hheld hcontents hreplay hsource
    | some source =>
      rw [hreplay] at hsource
      exact serves_source hkeeps hp hlevel hbuffer hheld hcontents ha hfree hreplay hsource

/-- Every stream hands over its list. A pull of a buffer goes into a stream that is no part of the
one that reads it, but below its level. -/
theorem served (hscene : scene.tree = .ofTree t) (b : Nat) : Served scene b := by
  induction b using Nat.strongRecOn with
  | ind b ih =>
    intro w h stream l hkeeps hfree hyields
    cases hyields with
    | done => exact ⟨w, .done, h, .succ (.const _), .refl w h, hkeeps, .done⟩
    | once s => exact ⟨w, .done, h, .succ (.const _), .refl w h, hkeeps, .done⟩
    | reader hp hlevel hposition =>
      exact serves_reader (ih _ hlevel) hkeeps hfree hp hlevel hposition
    | chain hab hfront hback => exact serves_chain (ih _ hab) hab hkeeps hfree hfront hback
    | filterMap f hab hsource hplaced =>
      exact serves_filterMap (ih _ hab) hab f hscene hkeeps hfree hsource hplaced
    | flatMap hab hfront hsource hready hrank hplaced =>
      exact serves_flatMap (ih _ hab) hab hscene hkeeps hfree hfront hsource hready hrank hplaced
    | distinct seen hab hsource =>
      exact serves_distinct (ih _ hab) hab seen hkeeps hfree hsource
    | orElse fallback hab hsource =>
      exact serves_orElse (ih _ hab) hab fallback hkeeps hfree hsource
    | first hab hsource => exact serves_first (ih _ hab) hab hkeeps hfree hsource
    | single captures hab hfront hwalks hids hrank =>
      exact serves_single (ih _ hab) hab hscene hkeeps hfree hfront hwalks hids hrank

end Cells

end TreeQuery
