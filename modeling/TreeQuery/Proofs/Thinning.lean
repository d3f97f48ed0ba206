import TreeQuery.Proofs.CacheTransparency

/-! What the replay cache saves. Pull by pull, a search with the cache tests some of the candidates
that the search without it tests, in the same order, and finds the same. A look-up that succeeds is
silent, as the search that it replays has been read to its end before. -/

namespace TreeQuery

namespace Search

variable {κ ε α β γ : Type} {counts : ε → Bool}

/-- The same items, and before each of them some of the counted notes, in their order. -/
inductive Thinner (counts : ε → Bool) : Search ε α → Search ε α → Prop
  | stop : Thinner counts stop stop
  | yield {a : α} {rest rest' : Unit → Search ε α} :
    Thinner counts (rest ()) (rest' ()) → Thinner counts (yield a rest) (yield a rest')
  | note {e : ε} {rest rest' : Unit → Search ε α} :
    Thinner counts (rest ()) (rest' ()) → Thinner counts (note e rest) (note e rest')
  | saved {e : ε} {s : Search ε α} {rest' : Unit → Search ε α} :
    Thinner counts s (rest' ()) → Thinner counts s (note e rest')
  | uncounted {e : ε} {rest : Unit → Search ε α} {t : Search ε α} :
    counts e = false → Thinner counts (rest ()) t → Thinner counts (note e rest) t

namespace Thinner

variable {s t : Search ε α}

theorem refl (s : Search ε α) : Thinner counts s s := by
  induction s with
  | stop => exact .stop
  | note e rest ih => exact .note (ih ())
  | yield a rest ih => exact .yield (ih ())

theorem items_eq (h : Thinner counts s t) : s.items = t.items := by
  induction h with
  | stop => rfl
  | yield _ ih => rw [items, items, ih]
  | note _ ih => exact ih
  | saved _ ih => exact ih
  | uncounted _ _ ih => exact ih

theorem ofList_items (t : Search ε α) : Thinner counts (ofList t.items) t := by
  induction t with
  | stop => exact .stop
  | note e rest ih => exact .saved (ih ())
  | yield a rest ih => exact .yield (ih ())

theorem pull (h : Thinner counts s t) :
    (s.pull.notes.filter counts).Sublist (t.pull.notes.filter counts) ∧
      s.pull.item = t.pull.item ∧ Thinner counts s.pull.rest t.pull.rest := by
  induction h with
  | stop => exact ⟨.slnil, rfl, .stop⟩
  | yield h _ => exact ⟨.slnil, rfl, h⟩
  | @note e rest rest' _ ih =>
    obtain ⟨hnotes, hitem, hrest⟩ := ih
    refine ⟨?_, hitem, hrest⟩
    by_cases he : counts e
    · simpa [Search.pull, List.filter_cons_of_pos he] using hnotes
    · simpa [Search.pull, List.filter_cons_of_neg he] using hnotes
  | @saved e s rest' _ ih =>
    obtain ⟨hnotes, hitem, hrest⟩ := ih
    refine ⟨?_, hitem, hrest⟩
    by_cases he : counts e
    · simpa [Search.pull, List.filter_cons_of_pos he] using hnotes.cons e
    · simpa [Search.pull, List.filter_cons_of_neg he] using hnotes
  | uncounted he _ ih =>
    obtain ⟨hnotes, hitem, hrest⟩ := ih
    refine ⟨?_, hitem, hrest⟩
    simpa [Search.pull, he] using hnotes

theorem after (h : Thinner counts s t) (k : Nat) :
    Thinner counts (Source.after k s) (Source.after k t) := by
  induction k generalizing s t with
  | zero => exact h
  | succ k ih =>
    have hrest := h.pull.2.2
    exact ih hrest

theorem append (h : Thinner counts s t) {f g : Unit → Search ε α}
    (hfg : Thinner counts (f ()) (g ())) : Thinner counts (s.append f) (t.append g) := by
  induction h with
  | stop => exact hfg
  | yield _ ih => exact .yield ih
  | note _ ih => exact .note ih
  | saved _ ih => exact .saved ih
  | uncounted he _ ih => exact .uncounted he ih

theorem noteIf (wanted : Bool) (e : ε) {f g : Unit → Search ε α}
    (hfg : Thinner counts (f ()) (g ())) :
    Thinner counts (noteIf wanted e f) (noteIf wanted e g) := by
  cases wanted with
  | false => exact hfg
  | true => exact .note hfg

theorem filterMap (h : Thinner counts s t) (f : α → Option β) :
    Thinner counts (s.filterMap f) (t.filterMap f) := by
  induction h with
  | stop => exact .stop
  | @yield a rest rest' _ ih =>
    rw [Search.filterMap, Search.filterMap]
    cases f a with
    | none => exact ih
    | some b => exact .yield ih
  | note _ ih => exact .note ih
  | saved _ ih => exact .saved ih
  | uncounted he _ ih => exact .uncounted he ih

theorem map (h : Thinner counts s t) (f : α → β) : Thinner counts (s.map f) (t.map f) := by
  induction h with
  | stop => exact .stop
  | yield _ ih => exact .yield ih
  | note _ ih => exact .note ih
  | saved _ ih => exact .saved ih
  | uncounted he _ ih => exact .uncounted he ih

theorem flatMap (h : Thinner counts s t) {f g : α → Search ε β}
    (hfg : ∀ a, Thinner counts (f a) (g a)) :
    Thinner counts (s.flatMap f) (t.flatMap g) := by
  induction h with
  | stop => exact .stop
  | @yield a rest rest' _ ih =>
    rw [flatMap_yield, flatMap_yield]
    exact (hfg a).append ih
  | note _ ih => exact .note ih
  | saved _ ih => exact .saved ih
  | uncounted he _ ih => exact .uncounted he ih

theorem first (h : Thinner counts s t) : Thinner counts s.first t.first := by
  induction h with
  | stop => exact .stop
  | yield _ _ => exact .yield .stop
  | note _ ih => exact .note ih
  | saved _ ih => exact .saved ih
  | uncounted he _ ih => exact .uncounted he ih

theorem orElse (h : Thinner counts s t) (fallback : Option α) :
    Thinner counts (s.orElse fallback) (t.orElse fallback) := by
  induction h with
  | stop => exact refl _
  | yield h _ => exact .yield h
  | note _ ih => exact .note ih
  | saved _ ih => exact .saved ih
  | uncounted he _ ih => exact .uncounted he ih

theorem announce (h : Thinner counts s t) (wanted : Bool) (event : α → ε) :
    Thinner counts (s.announce wanted event) (t.announce wanted event) := by
  induction h with
  | stop => exact .stop
  | @yield a rest rest' _ ih => exact noteIf wanted (event a) (.yield ih)
  | note _ ih => exact .note ih
  | saved _ ih => exact .saved ih
  | uncounted he _ ih => exact .uncounted he ih

theorem distinct [BEq α] [Hashable α] (h : Thinner counts s t) :
    Thinner counts s.distinct t.distinct := by
  have hseen (seen : Std.HashSet α) :
      Thinner counts (s.distinctFrom seen) (t.distinctFrom seen) := by
    induction h generalizing seen with
    | stop => exact .stop
    | @yield a rest rest' _ ih =>
      rw [distinctFrom, distinctFrom]
      split
      · exact ih seen
      · exact .yield (ih _)
    | note _ ih => exact .note (ih seen)
    | saved _ ih => exact .saved (ih seen)
    | uncounted he _ ih => exact .uncounted he (ih seen)
  exact hseen ∅

/-- A replay that is read for the first time. -/
theorem record (h : Thinner counts s t) (emit : α → Option β)
    (done : Replay (Search ε α) α → Search ε β) (next : Unit → Search ε β) (kept : Array α)
    (hdone : Thinner counts (done ⟨none, kept ++ s.items.toArray⟩) (next ())) :
    Thinner counts (s.record emit done kept) ((t.filterMap emit).append next) := by
  induction h generalizing kept with
  | stop => simpa [Search.items, Search.record, Search.filterMap, Search.append] using hdone
  | @yield a rest rest' _ ih =>
    have hkept : kept.push a ++ (rest ()).items.toArray =
        kept ++ (Search.yield a rest).items.toArray := by
      apply Array.ext'
      simp [Search.items]
    rw [← hkept] at hdone
    rw [Search.record, Search.filterMap]
    cases emit a with
    | none => exact ih _ hdone
    | some b => exact .yield (ih _ hdone)
  | note _ ih => exact .note (ih kept hdone)
  | saved _ ih => exact .saved (ih kept hdone)
  | uncounted he _ ih => exact .uncounted he (ih kept hdone)

/-- A replay that has been read to its end before. -/
theorem read_drained (h : Thinner counts s t) (emit : α → Option β)
    {done : Replay (Search ε α) α → Search ε β} {next : Unit → Search ε β}
    (hdone : Thinner counts (done (Replay.drained s)) (next ())) :
    Thinner counts ((Replay.drained s).read emit done) ((t.filterMap emit).append next) := by
  have hitems : Thinner counts (ofList s.items) t := by
    rw [h.items_eq]
    exact ofList_items t
  have hread := (hitems.filterMap emit).append (f := fun _ => done (Replay.drained s)) hdone
  exact hread

/-- Two replays that are read for the first time, and then go on alike. -/
theorem record_record (h : Thinner counts s t) (emit : α → Option β)
    {done done' : Replay (Search ε α) α → Search ε β}
    (hdone : ∀ r, Thinner counts (done r) (done' r)) (kept : Array α) :
    Thinner counts (s.record emit done kept) (t.record emit done' kept) := by
  induction h generalizing kept with
  | stop => exact hdone _
  | @yield a rest rest' _ ih =>
    rw [Search.record, Search.record]
    cases emit a with
    | none => exact ih _
    | some b => exact .yield (ih _)
  | note _ ih => exact .note (ih kept)
  | saved _ ih => exact .saved (ih kept)
  | uncounted he _ ih => exact .uncounted he (ih kept)

variable [BEq κ] [LawfulBEq κ] [Hashable κ]

/-- Searching with a memo instead of searching again, where look-ups do not count. -/
theorem flatMapMemo (h : Thinner counts s t) {search search' : κ → Search ε β}
    (hsearch : ∀ key, Thinner counts (search key) (search' key)) {lookup : Bool → ε}
    (hlookup : ∀ hit, counts (lookup hit) = false) (wanted : Bool) (key : α → κ)
    (emit : α → β → Option γ) {memo : Memo κ ε β} (hm : Memo.Faithful search memo) :
    Thinner counts (s.flatMapMemo wanted lookup key search emit memo)
      (t.flatMap fun a => (search' (key a)).filterMap (emit a)) := by
  have hnoted {wanted : Bool} {hit : Bool} {f : Unit → Search ε γ} {u : Search ε γ}
      (hf : Thinner counts (f ()) u) : Thinner counts (Search.noteIf wanted (lookup hit) f) u := by
    cases wanted with
    | false => exact hf
    | true => exact .uncounted (hlookup hit) hf
  induction h generalizing memo with
  | stop => exact .stop
  | @yield a rest rest' _ ih =>
    rw [Search.flatMapMemo, flatMap_yield]
    cases hget : memo[key a]? with
    | some replay =>
      obtain rfl := hm _ _ hget
      exact hnoted ((hsearch (key a)).read_drained (emit a) (ih hm))
    | none =>
      refine hnoted ?_
      have hdone := ih (hm.insert (key a))
      have hempty : #[] ++ (search (key a)).items.toArray = (search (key a)).items.toArray :=
        Array.empty_append
      rw [Replay.drained, ← hempty] at hdone
      have hread := (hsearch (key a)).record (emit a)
        (fun replay => (rest ()).flatMapMemo wanted lookup key search emit
          (memo.insert (key a) replay))
        (fun _ => (rest' ()).flatMap fun a => (search' (key a)).filterMap (emit a)) #[] hdone
      exact hread
  | note _ ih => exact .note (ih hm)
  | saved _ ih => exact .saved (ih hm)
  | uncounted he _ ih => exact .uncounted he (ih hm)

end Thinner

end Search

def Event.isCandidate : Event → Bool
  | candidate .. => true
  | lookup .. | found .. => false

/-- Plans of the same query, of which the first tests no more. -/
structure Plan.Thinner (p p' : Plan) : Prop where
  query_eq : p.query = p'.query
  run : ∀ s, Search.Thinner Event.isCandidate (p.run s) (p'.run s)

namespace Scene

open Search

abbrev Thin : States → States → Prop := Search.Thinner Event.isCandidate

/-- The scene with and without a memo. -/
def withMemo (scene : Scene) (memoize : Bool) : Scene := { scene with memoize }

variable {scene : Scene} {child child' : Plan} {running running' : States} {s : State}

theorem step_thin (h : child.Thinner child') (key : State → State)
    (emit : State → State → Option State) (hrunning : Thin running running') :
    Thin ((scene.withMemo true).step child key emit running)
      ((scene.withMemo false).step child' key emit running') := by
  have hlookup (hit : Bool) : (Event.lookup child.query hit).isCandidate = false := rfl
  have hmemo := hrunning.flatMapMemo h.run hlookup scene.traced key emit Memo.faithful_empty
  exact hmemo

theorem single_thin (f : Filter) (captures : Bool) {nested nested' : State → States}
    (h : ∀ s, Thin (nested s) (nested' s)) (s : State) :
    Thin ((scene.withMemo true).single f captures nested s)
      ((scene.withMemo false).single f captures nested' s) := by
  refine (Thinner.refl _).flatMap fun id => Thinner.noteIf _ _ ?_
  change Search.Thinner _ (if scene.accepts f s id then _ else _)
    (if scene.accepts f s id then _ else _)
  split
  · have hbound := (h (s.enter scene.tree f.capture id)).map State.bindings
    cases captures with
    | true => exact hbound.distinct.map _
    | false => exact hbound.first.map _
  · exact .stop

section Containers

variable {qs : List Query} {plan plan' : Query → Plan}
  (h : ∀ q ∈ qs, (plan q).Thinner (plan' q))

include h

theorem ordered_thin (s : State) :
    Thin ((scene.withMemo true).ordered (qs.map plan) s)
      ((scene.withMemo false).ordered (qs.map plan') s) := by
  rw [ordered, ordered, List.foldl_map, List.foldl_map]
  apply List.foldl_rel (r := Thin) (Thinner.refl _)
  intro q hq running running' hrunning
  apply Thinner.distinct
  exact step_thin (h q hq) id (fun _ found => some found) hrunning

theorem unordered_thin (s : State) :
    Thin ((scene.withMemo true).unordered (qs.map plan) s)
      ((scene.withMemo false).unordered (qs.map plan') s) := by
  rw [unordered, unordered, List.foldl_map, List.foldl_map]
  apply List.foldl_rel (r := Thin) (Thinner.refl _)
  intro q hq running running' hrunning
  apply Thinner.distinct
  exact step_thin (h q hq) (·.startAt s)
    (fun before found => some (found.notBefore scene.tree before)) hrunning

theorem advance_thin {progress progress' : Progress} (hclosed : progress.closed = progress'.closed)
    (hrunning : Thin progress.running progress'.running) {q : Query} (hq : q ∈ qs) :
    ((scene.withMemo true).advance progress (plan q)).closed =
        ((scene.withMemo false).advance progress' (plan' q)).closed ∧
      Thin ((scene.withMemo true).advance progress (plan q)).running
        ((scene.withMemo false).advance progress' (plan' q)).running := by
  have hchild := h q hq
  simp only [advance, ← hclosed, ← hchild.query_eq, true_and]
  apply Thinner.distinct
  split
  · exact step_thin hchild id _ (hrunning.filterMap _)
  · exact step_thin hchild id _ hrunning

theorem exact_thin (s : State) :
    Thin ((scene.withMemo true).exact (qs.map plan) s)
      ((scene.withMemo false).exact (qs.map plan') s) := by
  have hfold :
      ((qs.map plan).foldl (scene.withMemo true).advance { running := once s }).closed =
          ((qs.map plan').foldl (scene.withMemo false).advance { running := once s }).closed ∧
        Thin ((qs.map plan).foldl (scene.withMemo true).advance { running := once s }).running
          ((qs.map plan').foldl (scene.withMemo false).advance { running := once s }).running := by
    rw [List.foldl_map, List.foldl_map]
    apply List.foldl_rel (r := fun a b : Progress => a.closed = b.closed ∧ Thin a.running b.running)
      ⟨rfl, Thinner.refl _⟩
    intro q hq progress progress' hp
    exact advance_thin h hp.1 hp.2 hq
  rw [exact, exact, ← hfold.1]
  split
  · exact hfold.2.filterMap _
  · exact hfold.2

/-- What an `any` container has found is read to its end before the next child is asked. -/
theorem extend_thin {source source' : States} (hsource : Thin source source') (s : State)
    {q : Query}
    (hq : q ∈ qs) :
    ∃ found found' : States, extend s (.ofSource source) (plan q) = .ofSource found ∧
      extend s (.ofSource source') (plan' q) = .ofSource found' ∧ Thin found found' := by
  refine ⟨_, _, rfl, rfl, ?_⟩
  apply Thinner.distinct
  exact hsource.record_record some (fun drained => (Thinner.refl _).flatMap (h q hq).run) #[]

theorem any_thin (optional : Bool) (s : State) :
    Thin (any optional (qs.map plan) s) (any optional (qs.map plan') s) := by
  have hfold : ∃ found found' : States,
      (qs.map plan).foldl (extend s) (.ofSource .stop) = .ofSource found ∧
      (qs.map plan').foldl (extend s) (.ofSource .stop) = .ofSource found' ∧ Thin found found' := by
    rw [List.foldl_map, List.foldl_map]
    apply List.foldl_rel (r := fun a b : Replay States State => ∃ found found' : States,
      a = .ofSource found ∧ b = .ofSource found' ∧ Thin found found')
      ⟨.stop, .stop, rfl, rfl, .stop⟩
    intro q hq a b hab
    obtain ⟨source, source', rfl, rfl, hsource⟩ := hab
    exact extend_thin h hsource s hq
  obtain ⟨found, found', hon, hoff, hthin⟩ := hfold
  rw [any, any, List.isEmpty_map, List.isEmpty_map]
  split
  · exact Thinner.refl _
  · rw [hon, hoff]
    apply Thinner.orElse
    exact hthin.record_record some (fun _ => .stop) #[]

end Containers

/-- With a memo the evaluation of a query tests no more, whatever is nested in what. -/
theorem plan_thinner (scene : Scene) (q : Query) :
    ((scene.withMemo true).plan q).Thinner ((scene.withMemo false).plan q) := by
  induction q with
  | single f nested ih =>
    rw [plan, plan]
    exact ⟨rfl, single_thin f _ ih.run⟩
  | container mode children ih =>
    rw [plan, plan, plans_eq_map, plans_eq_map]
    refine ⟨rfl, fun s => ?_⟩
    cases mode with
    | ordered => exact ordered_thin ih s
    | unordered => exact unordered_thin ih s
    | any => exact any_thin ih false s
    | optional => exact any_thin ih true s
    | exact => exact exact_thin ih s

end Scene

namespace Matcher

open Search

theorem search_thinner (m : Matcher) (q : Query) (s : Subject) :
    Thinner Event.isCandidate ({ m with config := ⟨true⟩ }.search q s)
      ({ m with config := ⟨false⟩ }.search q s) := by
  have hbelow (node : Nat) :
      Thinner Event.isCandidate ({ m with config := ⟨true⟩ }.searchBelow q s node)
        ({ m with config := ⟨false⟩ }.searchBelow q s node) := by
    rw [searchBelow, searchBelow]
    split
    · exact .stop
    next t _ =>
      have hplan := Scene.plan_thinner (m.scene s (.ofTree t)) q
      exact hplan.run _
  have hfound := ((Thinner.refl (ofList (s.targets 0))).flatMap hbelow).map State.bindings
  exact hfound.distinct.announce m.traced (foundEvent s)

/-- In each pull, the candidates tested with the cache are some of those tested without it, in the
same order; the pull hands over the same. -/
theorem replayCache_tests_sublist (m : Matcher) (q : Query) (s : Subject) (k : Nat) :
    let on := (Source.after k ({ m with config := ⟨true⟩ }.search q s)).pull
    let off := (Source.after k ({ m with config := ⟨false⟩ }.search q s)).pull
    (on.notes.filter Event.isCandidate).Sublist (off.notes.filter Event.isCandidate) ∧
      on.item = off.item := by
  intro on off
  obtain ⟨hnotes, hitem, _⟩ := ((m.search_thinner q s).after k).pull
  exact ⟨hnotes, hitem⟩

end Matcher

end TreeQuery
