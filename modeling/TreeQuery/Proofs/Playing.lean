import TreeQuery.Proofs.Making
import TreeQuery.Proofs.Pulls

/-! A pull of a stream notes and hands over what a pull of the search does that the stream plays,
and what is left of the stream plays what is left of the search. That holds of every pull that comes
to an end, by induction on the fuel: whatever a pull goes into has less of it. -/

namespace TreeQuery

namespace Cells

open Search (ofList after cons)

theorem Outcome.bind_eq_finished {α β : Type} {o : Outcome α} {f : α → Outcome β} {b : β}
    (h : o.bind f = .finished b) : ∃ a, o = .finished a ∧ f a = .finished b := by
  cases o with
  | finished a => exact ⟨a, rfl, h⟩
  | failed _ => cases h
  | unfinished => cases h

/-- A pull has come to the end of what is played, or has found the first item of it. A buffer that
the stream reads to its end has come to its end with it. -/
inductive Continues (scene : Scene) (P : Contents) (h : Heap) (F : Set Cell) (stream : Stream) :
    States → Answer → Contents → Set Cell → Prop
  | ended {events rest h' P' F'} (hlog : h'.log = h.log ++ events)
      (hchanges : Changes P h F P' h' F') (hrest : Plays scene P' h' F' rest .stop)
      (hreads : ∀ b, stream.Reads b → rest.Reads b ∧ h'.Drained b (P' b)) :
    Continues scene P h F stream (after events .stop) ⟨none, rest, h'⟩ P' F'
  | found {events r s rest h' P' F'} (hlog : h'.log = h.log ++ events)
      (hchanges : Changes P h F P' h' F') (hrest : Plays scene P' h' F' rest s)
      (hreads : ∀ b, stream.Reads b → rest.Reads b) :
    Continues scene P h F stream (after events (cons r s)) ⟨some r, rest, h'⟩ P' F'

def PlaysOn (scene : Scene) (fuel : Nat) : Prop :=
  ∀ {P : Contents} {h : Heap} {F : Set Cell} {stream : Stream} {search : States} {answer : Answer},
    Plays scene P h F stream search → F ⊆ h.cells → pull scene fuel stream h = .finished answer →
      ∃ P' F', Continues scene P h F stream search answer P' F'

variable {scene : Scene} {P P' P'' : Contents} {h h' : Heap} {F F' F'' G G' H : Set Cell}
  {t : Tree Nat} {stream stream' source front back : Stream} {s search : States} {answer : Answer}
  {fuel : Nat}

theorem Continues.item_and_log (hcontinues : Continues scene P h F stream search answer P' F') :
    answer.item = search.pull.item ∧ answer.heap.log = h.log ++ search.pull.notes := by
  cases hcontinues with
  | ended hlog =>
    rw [Search.pull_after_stop]
    exact ⟨rfl, hlog⟩
  | found hlog =>
    rw [Search.pull_after_cons]
    exact ⟨rfl, hlog⟩

/-- A pull that goes on as another one does. -/
theorem Continues.later {events : List Event}
    (hlater : Continues scene P' h' F' stream' search answer P'' F'')
    (hlog : h'.log = h.log ++ events) (hchanges : Changes P h F P' h' F')
    (hreads : ∀ b, stream.Reads b → stream'.Reads b) :
    Continues scene P h F stream (after events search) answer P'' F'' := by
  cases hlater with
  | ended hlog' hchanges' hrest hreads' =>
    rw [Search.after_after]
    refine .ended ?_ (hchanges.trans hchanges' hchanges.within) hrest fun b hb =>
      hreads' b (hreads b hb)
    rw [hlog', hlog, List.append_assoc]
  | found hlog' hchanges' hrest hreads' =>
    rw [Search.after_after]
    refine .found ?_ (hchanges.trans hchanges' hchanges.within) hrest fun b hb =>
      hreads' b (hreads b hb)
    rw [hlog', hlog, List.append_assoc]

section Readers

variable {b position : Nat} {buffer : Buffer}

theorem held_eq_false_of_pull (hbuffer : h.buffers[b]? = some buffer)
    (hpull : pull scene (fuel + 1) (.reader b position) h = .finished answer) :
    buffer.held = false := by
  cases hheld : buffer.held with
  | false => rfl
  | true =>
    simp only [pull, hbuffer, hheld, if_true] at hpull
    cases hpull

theorem continues_drained (hF : F ⊆ h.cells) (hdrained : h.Drained b (P b))
    (hpull : pull scene (fuel + 1) (.reader b position) h = .finished answer) :
    ∃ P' F', Continues scene P h F (.reader b position) (ofList ((P b).drop position)) answer P'
      F' := by
  obtain ⟨buffer, hbuffer, hsource, hitems⟩ := id hdrained
  have hkept : buffer.replay.items[position]? = (P b)[position]? := by
    rw [← hitems, Array.getElem?_toList]
  have hheld := held_eq_false_of_pull hbuffer hpull
  simp only [pull, hbuffer, hheld, Bool.false_eq_true, if_false, hkept, hsource] at hpull
  by_cases hlt : position < (P b).length
  · rw [List.getElem?_eq_getElem hlt] at hpull
    obtain rfl := Outcome.finished.inj hpull
    rw [List.drop_eq_getElem_cons hlt]
    have hfound : Continues scene P h F (.reader b position)
        (after [] (cons (P b)[position] (ofList ((P b).drop (position + 1))))) _ P F :=
      .found (List.append_nil _).symm (.refl hF) (.drained (position + 1) hdrained) fun _ hb => hb
    exact ⟨P, F, hfound⟩
  · have hle := Nat.le_of_not_lt hlt
    rw [List.getElem?_eq_none hle] at hpull
    obtain rfl := Outcome.finished.inj hpull
    have hrest : Plays scene P h F (.reader b position) (ofList ((P b).drop position)) :=
      .drained position hdrained
    rw [List.drop_eq_nil_of_le hle] at hrest ⊢
    have hended : Continues scene P h F (.reader b position) (after [] .stop)
        ⟨none, .reader b position, h⟩ P F := by
      refine .ended (List.append_nil _).symm (.refl hF) hrest fun c hc => ?_
      obtain rfl : b = c := hc
      exact ⟨rfl, hdrained⟩
    exact ⟨P, F, hended⟩

/-- What goes on while a buffer is held that still has its source, and is put back afterwards. -/
theorem Changes.holdBuffer (hbuffer : h.buffers[b]? = some buffer)
    (hsource : buffer.replay.source.isSome) (hF : F ⊆ h.cells) (hown : .buffer b ∈ F)
    (hrest : .buffer b ∉ G) (hG : G ⊆ F)
    (hh : Changes P (h.setBuffer b { buffer with held := true }) G P' h' G') (buffer' : Buffer) :
    Changes P h F P' (h'.setBuffer b buffer') ({.buffer b} ∪ G') ∧
      Changes P' h' {.buffer b} P' (h'.setBuffer b buffer') {.buffer b} ∧
      (h'.setBuffer b buffer').buffers[b]? = some buffer' := by
  let held : Buffer := { buffer with held := true }
  have hhold : Changes P h {.buffer b} P (h.setBuffer b held) {.buffer b} :=
    .setBuffer hbuffer hsource
  have hheld : (h.setBuffer b held).buffers[b]? = some held := by
    rw [Heap.getElem?_setBuffer, if_pos rfl, hbuffer, Option.map_some]
  have hcell : Cell.buffer b ∈ (h.setBuffer b held).cells := hhold.cells (hF hown)
  have hentry : h'.buffers[b]? = some held := (hh.same _ hcell hrest).trans hheld
  have hput : Changes P' h' {.buffer b} P' (h'.setBuffer b buffer') {.buffer b} :=
    .setBuffer hentry hsource
  have hbefore : Changes P h F P (h.setBuffer b held) (G ∪ {.buffer b}) := by
    have hbeside := hhold.beside (Set.singleton_subset_iff.mpr hown) hG (hG.trans hF)
    rwa [Set.union_comm] at hbeside
  have hduring : Changes P h F P' h' ({.buffer b} ∪ G') := by
    have hbeside := hbefore.trans (hh.beside Set.subset_union_left Set.subset_union_right
      (Set.singleton_subset_iff.mpr hcell)) hbefore.within
    rwa [Set.union_comm] at hbeside
  have hafter := hput.beside Set.subset_union_left Set.subset_union_right
    (Set.subset_union_right.trans hduring.made)
  refine ⟨hduring.trans hafter hduring.within, hput, ?_⟩
  rw [Heap.getElem?_setBuffer, if_pos rfl, hentry, Option.map_some]

/-- While its source is pulled the buffer is held, and no cell of the source is touched by that. -/
theorem continues_live {source : Stream} (ih : PlaysOn scene fuel) (hF : F ⊆ h.cells)
    (hbuffer : h.buffers[b]? = some buffer) (hsource : buffer.replay.source = some source)
    (hcontents : P b = buffer.replay.items.toList ++ search.items) (hown : .buffer b ∈ F)
    (hrest : .buffer b ∉ G) (hG : G ⊆ F) (hplays : Plays scene P h G source search)
    (hpull : pull scene (fuel + 1) (.reader b buffer.replay.items.size) h = .finished answer) :
    ∃ P' F', Continues scene P h F (.reader b buffer.replay.items.size) search answer P' F' := by
  have hnone : buffer.replay.items[buffer.replay.items.size]? = none :=
    Array.getElem?_eq_none (Nat.le_refl _)
  have hheld := held_eq_false_of_pull hbuffer hpull
  simp only [pull, hbuffer, hheld, Bool.false_eq_true, if_false, hnone, hsource] at hpull
  obtain ⟨asked, hasked, hpull⟩ := Outcome.bind_eq_finished hpull
  let held : Heap := h.setBuffer b { buffer with held := true }
  have hsome : buffer.replay.source.isSome := by rw [hsource, Option.isSome_some]
  have hhold : Changes P h {.buffer b} P held {.buffer b} := .setBuffer hbuffer hsome
  have hframed := hplays.frame hhold (hG.trans hF) (Set.disjoint_singleton_left.mpr hrest)
  obtain ⟨P', G', hlater⟩ := ih hframed ((hG.trans hF).trans hhold.cells) hasked
  have hcell : Cell.buffer b ∈ held.cells := hhold.cells (hF hown)
  cases hlater with
  | @ended _ _ h' _ _ hlog hchanges =>
    obtain rfl := Outcome.finished.inj hpull
    obtain ⟨hall, _, hentry⟩ := hchanges.holdBuffer hbuffer hsome hF hown hrest hG
      ⟨⟨none, buffer.replay.items⟩, false⟩
    have hend : P' b = buffer.replay.items.toList := by
      rw [hchanges.contents hcell, hcontents, Search.items_after, Search.items, List.append_nil]
    have hdrained : Heap.Drained _ b (P' b) := ⟨_, hentry, rfl, hend.symm⟩
    have hstop : Plays scene P' _ ({.buffer b} ∪ G') _ _ :=
      .drained buffer.replay.items.size hdrained
    rw [List.drop_eq_nil_of_le (by simp [hend])] at hstop
    refine ⟨P', _, .ended hlog hall hstop fun c hc => ?_⟩
    obtain rfl : b = c := hc
    exact ⟨rfl, hdrained⟩
  | @found _ r s rest h' _ _ hlog hchanges hplays' =>
    obtain rfl := Outcome.finished.inj hpull
    obtain ⟨hall, hput, hentry⟩ := hchanges.holdBuffer hbuffer hsome hF hown hrest hG
      ⟨⟨some rest, buffer.replay.items.push r⟩, false⟩
    have hnew := hchanges.not_mem hcell hrest
    have hnext : P' b = (buffer.replay.items.push r).toList ++ s.items := by
      rw [hchanges.contents hcell, hcontents, Search.items_after, Search.items_cons,
        Array.toList_push, List.append_assoc, List.singleton_append]
    have hsource' := hplays'.frame hput hchanges.made (Set.disjoint_singleton_left.mpr hnew)
    have hreader : Plays scene P' _ ({.buffer b} ∪ G') _ s :=
      .live hentry rfl hnext (.inl rfl) hnew Set.subset_union_right hsource'
    rw [Array.size_push] at hreader
    exact ⟨P', _, .found hlog hall hreader fun _ hc => hc⟩

end Readers

/-- What comes behind a reader that has come to its end. -/
theorem plays_extended {c : Nat} {r : State} (child : Query) (hdrained : h.Drained c (P c))
    (hplaced : ∀ u ∈ r :: (P c).map (·.startAt r), u.Placed scene.tree) :
    Plays scene P h ∅ (extended r c child)
      ((ofList (r :: (P c).map (·.startAt r))).distinct.flatMap (scene.evaluate child)) := by
  let starts : States := (ofList (r :: (P c).map (·.startAt r))).distinct
  let call : Call := ⟨child, none, id, fun _ found => some found⟩
  have hseeds : Plays scene P h ∅ (.chain (.once r) (.reader c 0)) (ofList (r :: P c)) :=
    .chain (Set.disjoint_empty _) subset_rfl subset_rfl (.once r) (.drained 0 hdrained)
  have hstarts := (hseeds.filterMap fun seed => some (seed.startAt r)).distinct_empty
  rw [Search.filterMap_ofList, List.filterMap_eq_map'] at hstarts
  have hall : ∀ u ∈ starts.items, u.Placed scene.tree := by
    intro u hu
    rw [Search.items_distinct, Search.items_ofList, List.mem_eraseDups] at hu
    exact hplaced u hu
  have hcalls :
      Plays scene P h ∅ (extended r c child) (starts.flatMapAfter (call.finds scene) []) :=
    .flatMap (.nothing rfl) (Set.disjoint_empty _) (Set.disjoint_empty _) (Set.disjoint_empty _)
      subset_rfl subset_rfl subset_rfl .done hstarts hall
  have hfinds : call.finds scene = fun _ => scene.evaluate child :=
    funext fun _ => funext fun u => Search.filterMap_some (scene.evaluate child u)
  rwa [hfinds, ← Search.flatMap_eq_flatMapAfter] at hcalls

section Calls

variable {O : Set Cell} {call : Call} {table : Table} {earlier : List State} {r : State} {n : Nat}
  {made : Stream × Heap}

theorem Call.finds_of_table (htable : call.table = some n) (hit : Bool)
    (hhit : decide (call.key r ∈ earlier.map call.key) = hit) :
    call.finds scene earlier r = after (if scene.traced then [.lookup call.query hit] else [])
      ((if hit then ofList (scene.results call.query (call.key r))
        else scene.evaluate call.query (call.key r)).filterMap (call.emit r)) := by
  simp only [Call.finds, htable, Search.lookUp, hhit, Search.noteIf_eq_after]
  rfl

/-- What has been made for a state that a call has asked for. -/
structure Asked (scene : Scene) (P : Contents) (h : Heap) (O : Set Cell) (call : Call)
    (earlier : List State) (r : State) (made : Stream × Heap) (events : List Event) (found : States)
    (P' : Contents) (G : Set Cell) : Prop where
  log : made.2.log = h.log ++ events
  finds : call.finds scene earlier r = after events found
  changes : Changes P h O P' made.2 (O ∪ G)
  disjoint : Disjoint O G
  owns : Owns scene P' made.2 made.1 call (earlier ++ [r]) O
  plays : Plays scene P' made.2 G made.1 found

/-- A state with a key that has an entry is served from it. -/
theorem asked_hit {b : Nat} (hO : .table n ∈ h.cells) (htable : call.table = some n)
    (hentries : h.tables[n]? = some table) (henters : Enters scene P h .done call table earlier)
    (hentry : table.entries[call.key r]? = some b) :
    Asked scene P h {.table n} call earlier r
      (.filterMap (call.emit r) (.reader b 0), h.noteIf scene.traced (.lookup call.query true))
      (if scene.traced then [.lookup call.query true] else [])
      ((ofList (scene.results call.query (call.key r))).filterMap (call.emit r)) P ∅ where
  log := h.log_noteIf _ _
  finds := by
    have hmem : call.key r ∈ earlier.map call.key :=
      (henters.isSome_iff _).mp (by rw [hentry, Option.isSome_some])
    rw [Call.finds_of_table htable true (decide_eq_true hmem), if_pos rfl]
  changes := by
    rw [Set.union_empty]
    exact .noteIf _ _ (Set.singleton_subset_iff.mpr hO)
  disjoint := Set.disjoint_empty _
  owns := by
    have hmem : call.key r ∈ earlier.map call.key :=
      (henters.isSome_iff _).mp (by rw [hentry, Option.isSome_some])
    have hnoted : Changes P h ∅ P (h.noteIf scene.traced (.lookup call.query true)) ∅ :=
      .noteIf _ _ (Set.empty_subset _)
    have hextended := henters.extend hnoted
    refine .table htable ((hnoted.same _ hO (Set.notMem_empty _)).trans hentries) ⟨fun k => ?_, ?_⟩
    · rw [hextended.isSome_iff, List.map_append, List.mem_append, List.map_singleton,
        List.mem_singleton]
      exact ⟨.inl, fun hk => hk.elim id fun he => he ▸ hmem⟩
    · intro k c hc
      obtain ⟨hlt, hresults, hend⟩ := hextended.entry hc
      exact ⟨hlt, hresults, .inl (hend.resolve_right id)⟩
  plays := by
    obtain ⟨_, hresults, hend⟩ := henters.entry hentry
    have hdrained := (hend.resolve_right id : h.Drained b (P b))
    have hnoted : Changes P h ∅ P (h.noteIf scene.traced (.lookup call.query true)) ∅ :=
      .noteIf _ _ (Set.empty_subset _)
    rw [← hresults]
    exact .filterMap _ (.drained 0 (hnoted.drained hdrained))

/-- For a new key an entry is made, and nothing is pulled. -/
theorem asked_miss (hscene : scene.tree = .ofTree t) (hplaced : (call.key r).Placed scene.tree)
    (hO : .table n ∈ h.cells) (htable : call.table = some n)
    (henters : Enters scene P h .done call table earlier)
    (hentry : table.entries[call.key r]? = none) :
    let held := (h.noteIf scene.traced (.lookup call.query false)).setTable n
      { table with held := true }
    let found := build scene call.query (call.key r) held
    let kept := found.2.newBuffer found.1
    let entered : Table := { entries := table.entries.insert (call.key r) kept.1 }
    ∃ P' G, Asked scene P h {.table n} call earlier r
      (.filterMap (call.emit r) (.reader kept.1 0), kept.2.setTable n entered)
      (if scene.traced then [.lookup call.query false] else [])
      ((scene.evaluate call.query (call.key r)).filterMap (call.emit r)) P' G := by
  intro held found kept entered
  have hown : {Cell.table n} ⊆ h.cells := Set.singleton_subset_iff.mpr hO
  have hnoted : Changes P h {.table n} P (h.noteIf scene.traced (.lookup call.query false))
      {.table n} :=
    .noteIf _ _ hown
  have hheld : Changes P h {.table n} P held {.table n} :=
    hnoted.trans (.setTable (hnoted.cells hO)) hnoted.within
  obtain ⟨P', G, hkept, hlog, hcontents, hreader⟩ := (made hscene hplaced call.query :
    Made scene P held found (scene.evaluate call.query (call.key r))).kept
  have hnew : Cell.table n ∉ G := hkept.not_mem (hheld.made rfl) (Set.notMem_empty _)
  have hbefore : Changes P h {.table n} P' kept.2 (G ∪ {.table n}) :=
    hheld.trans (hkept.beside (Set.empty_subset _) subset_rfl hheld.made) hheld.within
  have hput : Changes P' kept.2 {.table n} P' (kept.2.setTable n entered) {.table n} :=
    .setTable (hbefore.made (.inr rfl))
  have hall : Changes P h {.table n} P' (kept.2.setTable n entered) ({.table n} ∪ G) :=
    hbefore.trans (hput.beside Set.subset_union_right Set.subset_union_left hkept.made)
      hbefore.within
  have hreader' := hreader.frame hput hkept.made (Set.disjoint_singleton_left.mpr hnew)
  refine ⟨P', G, ?_, ?_, hall, Set.disjoint_singleton_left.mpr hnew, ?_, hreader'.filterMap _⟩
  · change kept.2.log = _
    rw [hlog]
    exact h.log_noteIf _ _
  · have hmem : call.key r ∉ earlier.map call.key := by
      rw [← henters.isSome_iff, hentry]
      simp
    rw [Call.finds_of_table htable false (decide_eq_false hmem), if_neg Bool.false_ne_true]
  · have hlt : n < kept.2.tables.size := hbefore.made (.inr rfl)
    have hset : (kept.2.setTable n entered).tables[n]? = some entered := by
      rw [Heap.getElem?_setTable, if_pos rfl, Array.getElem?_eq_getElem hlt, Option.map_some]
    have hextended := henters.extend hall
    refine .table htable hset ⟨fun k => ?_, fun {k b} hb => ?_⟩
    · rw [Std.HashMap.getElem?_insert, List.map_append, List.mem_append, List.map_singleton,
        List.mem_singleton, ← hextended.isSome_iff]
      split
      next heq => exact iff_of_true rfl (.inr (beq_iff_eq.mp heq).symm)
      next hne => exact ⟨.inl, fun hk => hk.resolve_right fun he => hne (beq_iff_eq.mpr he.symm)⟩
    · rw [Std.HashMap.getElem?_insert] at hb
      split at hb
      next heq =>
        obtain rfl : kept.1 = b := Option.some.inj hb
        obtain rfl : call.key r = k := beq_iff_eq.mp heq
        exact ⟨hreader'.lt_size_of_reads rfl, hcontents, .inr rfl⟩
      next =>
        obtain ⟨hlt, hresults, hend⟩ := hextended.entry hb
        exact ⟨hlt, hresults, .inl (hend.resolve_right id)⟩

theorem Owns.asked (hscene : scene.tree = .ofTree t) (hcall : Owns scene P h .done call earlier O)
    (hO : O ⊆ h.cells) (hplaced : (call.key r).Placed scene.tree)
    (hask : call.ask scene r h = .finished made) :
    ∃ events found P' G, Asked scene P h O call earlier r made events found P' G := by
  cases hcall with
  | nothing htable =>
    simp only [Call.ask, htable, evaluate_of_placed hscene hplaced] at hask
    obtain rfl := Outcome.finished.inj hask
    obtain ⟨P', G, hchanges, hlog, hplays⟩ := (Cells.made hscene hplaced call.query :
      Made scene P h _ (scene.evaluate call.query (call.key r)))
    have hfinds : call.finds scene earlier r =
        (scene.evaluate call.query (call.key r)).filterMap (call.emit r) := by
      rw [Call.finds, htable]
    rw [← Set.empty_union G] at hchanges
    exact ⟨[], _, P', G, hlog.trans (List.append_nil _).symm, hfinds, hchanges,
      Set.empty_disjoint _, .nothing htable, hplays.filterMap (call.emit r)⟩
  | @table n table htable hentries henters =>
    have hn : Cell.table n ∈ h.cells := hO rfl
    have hfree : table.held = false := by
      cases hheld : table.held with
      | false => rfl
      | true =>
        simp only [Call.ask, htable, hentries, hheld, if_true] at hask
        cases hask
    simp only [Call.ask, htable, hentries, hfree, Bool.false_eq_true, if_false] at hask
    cases hentry : table.entries[call.key r]? with
    | some b =>
      simp only [hentry] at hask
      obtain rfl := Outcome.finished.inj hask
      exact ⟨_, _, _, _, asked_hit hn htable hentries henters hentry⟩
    | none =>
      simp only [hentry, evaluate_of_placed hscene hplaced] at hask
      obtain rfl := Outcome.finished.inj hask
      exact ⟨_, _, asked_miss hscene hplaced hn htable henters hentry⟩

end Calls

section Streams

variable (ih : PlaysOn scene fuel) (hF : F ⊆ h.cells)

include ih hF

theorem continues_filterMap {f : State → Option State} (hsource : Plays scene P h F source s)
    (hpull : pull scene (fuel + 1) (.filterMap f source) h = .finished answer) :
    ∃ P' F', Continues scene P h F (.filterMap f source) (s.filterMap f) answer P' F' := by
  obtain ⟨asked, hasked, hpull⟩ := Outcome.bind_eq_finished hpull
  obtain ⟨P', F', hsource⟩ := ih hsource hF hasked
  cases hsource with
  | ended hlog hchanges hrest hreads =>
    obtain rfl := Outcome.finished.inj hpull
    rw [Search.after_filterMap]
    exact ⟨P', F', .ended hlog hchanges (hrest.filterMap f) hreads⟩
  | @found events r s rest h' _ _ hlog hchanges hrest hreads =>
    rw [Search.after_filterMap, Search.cons_filterMap]
    by_cases hinside : inside scene r
    · simp only [if_pos hinside] at hpull
      cases hf : f r with
      | some u =>
        simp only [hf] at hpull
        obtain rfl := Outcome.finished.inj hpull
        exact ⟨P', F', .found hlog hchanges (hrest.filterMap f) hreads⟩
      | none =>
        simp only [hf] at hpull
        obtain ⟨P'', F'', hlater⟩ := ih (hrest.filterMap f) hchanges.made hpull
        exact ⟨P'', F'', hlater.later hlog hchanges hreads⟩
    · simp only [if_neg hinside] at hpull
      cases hpull

theorem continues_distinct {seen : Std.HashSet State} (hsource : Plays scene P h F source s)
    (hpull : pull scene (fuel + 1) (.distinct seen source) h = .finished answer) :
    ∃ P' F', Continues scene P h F (.distinct seen source) (s.distinctFrom seen) answer P' F' := by
  obtain ⟨asked, hasked, hpull⟩ := Outcome.bind_eq_finished hpull
  obtain ⟨P', F', hsource⟩ := ih hsource hF hasked
  cases hsource with
  | ended hlog hchanges hrest hreads =>
    obtain rfl := Outcome.finished.inj hpull
    rw [Search.after_distinctFrom]
    exact ⟨P', F', .ended hlog hchanges (hrest.distinct seen) fun _ hb => hb.elim⟩
  | @found events r s rest h' _ _ hlog hchanges hrest hreads =>
    rw [Search.after_distinctFrom, Search.cons_distinctFrom]
    cases hseen : seen.contains r with
    | true =>
      simp only [hseen, if_true] at hpull ⊢
      obtain ⟨P'', F'', hlater⟩ := ih (hrest.distinct seen) hchanges.made hpull
      exact ⟨P'', F'', hlater.later hlog hchanges fun _ hb => hb.elim⟩
    | false =>
      simp only [hseen, Bool.false_eq_true, if_false] at hpull ⊢
      obtain rfl := Outcome.finished.inj hpull
      exact ⟨P', F', .found hlog hchanges (hrest.distinct (seen.insert r)) fun _ hb => hb.elim⟩

theorem continues_orElse {fallback : Option State} (hsource : Plays scene P h F source s)
    (hpull : pull scene (fuel + 1) (.orElse fallback source) h = .finished answer) :
    ∃ P' F', Continues scene P h F (.orElse fallback source) (s.orElse fallback) answer P' F' := by
  obtain ⟨asked, hasked, hpull⟩ := Outcome.bind_eq_finished hpull
  obtain ⟨P', F', hsource⟩ := ih hsource hF hasked
  cases hsource with
  | ended hlog hchanges hrest hreads =>
    obtain rfl := Outcome.finished.inj hpull
    rw [Search.after_orElse]
    cases fallback with
    | some r => exact ⟨P', F', .found hlog hchanges (hrest.orElse none) fun _ hb => hb.elim⟩
    | none => exact ⟨P', F', .ended hlog hchanges (hrest.orElse none) fun _ hb => hb.elim⟩
  | @found events r s rest h' _ _ hlog hchanges hrest hreads =>
    obtain rfl := Outcome.finished.inj hpull
    rw [Search.after_orElse]
    have hnone := hrest.orElse none
    rw [Search.orElse_none] at hnone
    exact ⟨P', F', .found hlog hchanges hnone fun _ hb => hb.elim⟩

theorem continues_first (hsource : Plays scene P h F source s)
    (hpull : pull scene (fuel + 1) (.first source) h = .finished answer) :
    ∃ P' F', Continues scene P h F (.first source) s.first answer P' F' := by
  obtain ⟨asked, hasked, hpull⟩ := Outcome.bind_eq_finished hpull
  obtain ⟨P', F', hsource⟩ := ih hsource hF hasked
  obtain rfl := Outcome.finished.inj hpull
  cases hsource with
  | ended hlog hchanges hrest hreads =>
    rw [Search.after_first]
    exact ⟨P', F', .ended hlog hchanges .done fun _ hb => hb.elim⟩
  | found hlog hchanges hrest hreads =>
    rw [Search.after_first]
    exact ⟨P', F', .found hlog hchanges .done fun _ hb => hb.elim⟩

theorem continues_chain {u : States} (hdisjoint : Disjoint G H) (hG : G ⊆ F) (hH : H ⊆ F)
    (hfront : Plays scene P h G front s) (hback : Plays scene P h H back u)
    (hpull : pull scene (fuel + 1) (.chain front back) h = .finished answer) :
    ∃ P' F', Continues scene P h F (.chain front back) (s.append fun _ => u) answer P' F' := by
  obtain ⟨asked, hasked, hpull⟩ := Outcome.bind_eq_finished hpull
  have hHh : H ⊆ h.cells := hH.trans hF
  obtain ⟨P', G', hfront⟩ := ih hfront (hG.trans hF) hasked
  cases hfront with
  | ended hlog hchanges hrest hreads =>
    have hback' := hback.frame hchanges hHh hdisjoint
    have hbeside := (hchanges.beside hG hH hHh).shrink Set.subset_union_right
    obtain ⟨P'', F'', hlater⟩ := ih hback' hbeside.made hpull
    rw [Search.after_append]
    exact ⟨P'', F'', hlater.later hlog hbeside fun _ hb => hb.elim⟩
  | found hlog hchanges hrest hreads =>
    obtain rfl := Outcome.finished.inj hpull
    have hback' := hback.frame hchanges hHh hdisjoint
    have hplays := Plays.chain (hchanges.disjoint hdisjoint hHh) Set.subset_union_left
      Set.subset_union_right hrest hback'
    rw [Search.after_append, Search.cons_append]
    exact ⟨P', _, .found hlog (hchanges.beside hG hH hHh) hplays fun _ hb => hb.elim⟩

theorem continues_extended {c : Nat} {child : Query} {r : State} (hreads : front.Reads c)
    (hfront : Plays scene P h F front s)
    (hplaced : ∀ u ∈ r :: (P c).map (·.startAt r), u.Placed scene.tree)
    (hpull : pull scene (fuel + 1) (.chain front (extended r c child)) h = .finished answer) :
    ∃ P' F', Continues scene P h F (.chain front (extended r c child))
      (s.append fun _ =>
        (ofList (r :: (P c).map (·.startAt r))).distinct.flatMap (scene.evaluate child))
      answer P' F' := by
  obtain ⟨asked, hasked, hpull⟩ := Outcome.bind_eq_finished hpull
  have hc := hfront.lt_size_of_reads hreads
  obtain ⟨P', F', hfront⟩ := ih hfront hF hasked
  cases hfront with
  | ended hlog hchanges hrest hreads' =>
    obtain ⟨_, hdrained⟩ := hreads' c hreads
    rw [← hchanges.contents hc] at hplaced ⊢
    obtain ⟨P'', F'', hlater⟩ :=
      ih (plays_extended child hdrained hplaced) (Set.empty_subset _) hpull
    rw [Search.after_append]
    exact ⟨P'', F'', hlater.later hlog (hchanges.shrink (Set.empty_subset _)) fun _ hb => hb.elim⟩
  | found hlog hchanges hrest hreads' =>
    obtain rfl := Outcome.finished.inj hpull
    rw [← hchanges.contents hc] at hplaced ⊢
    rw [Search.after_append, Search.cons_append]
    exact ⟨P', F', .found hlog hchanges (.extended child (hreads' c hreads) hrest hplaced)
      fun _ hb => hb.elim⟩

omit hF in
/-- A pull of a flat map goes on with what has been found from an item of the source. -/
theorem continues_asked {O : Set Cell} {u : States} {call : Call} {earlier : List State} {r : State}
    {rest : Stream} (hF : H ∪ O ⊆ h.cells) (front source : Stream) (hscene : scene.tree = .ofTree t)
    (hcall : Owns scene P h .done call earlier O) (hown : Disjoint O H)
    (hsource : Plays scene P h H rest u)
    (hplaced : ∀ v ∈ r :: u.items, (call.key v).Placed scene.tree)
    (hpull : ((call.ask scene r h).bind fun (found, h) =>
      pull scene fuel (.flatMap call found rest) h) = .finished answer) :
    ∃ P' F', Continues scene P h (H ∪ O) (.flatMap call front source)
      ((call.finds scene earlier r).append fun _ =>
        u.flatMapAfter (call.finds scene) (earlier ++ [r])) answer P' F' := by
  have hO : O ⊆ h.cells := Set.subset_union_right.trans hF
  have hH : H ⊆ h.cells := Set.subset_union_left.trans hF
  obtain ⟨hr, hlater⟩ := List.forall_mem_cons.mp hplaced
  obtain ⟨⟨found, h'⟩, hask, hpull⟩ := Outcome.bind_eq_finished hpull
  obtain ⟨events, w, P', G, hasked⟩ := hcall.asked hscene hO hr hask
  have hdisjoint : Disjoint (O ∪ G) H := hasked.changes.disjoint hown hH
  have hchanges : Changes P h (H ∪ O) P' h' ((O ∪ G) ∪ H) :=
    hasked.changes.beside Set.subset_union_right Set.subset_union_left hH
  have hplays : Plays scene P' h' ((O ∪ G) ∪ H) (.flatMap call found rest) _ :=
    .flatMap hasked.owns hasked.disjoint hown (hdisjoint.mono_left Set.subset_union_right)
      (Set.subset_union_left.trans Set.subset_union_left)
      (Set.subset_union_right.trans Set.subset_union_left) Set.subset_union_right hasked.plays
      (hsource.frame hasked.changes hH hown) hlater
  obtain ⟨P'', F'', hgoesOn⟩ := ih hplays hchanges.made hpull
  rw [hasked.finds, Search.after_append]
  exact ⟨P'', F'', hgoesOn.later hasked.log hchanges fun _ hb => hb.elim⟩

/-- From the front, and when that is at its end from what is found from the next of the source. -/
theorem continues_flatMap (hscene : scene.tree = .ofTree t) {O : Set Cell} {u : States}
    {call : Call} {earlier : List State} (hcall : Owns scene P h front call earlier O)
    (hfrontOwn : Disjoint O G) (hsourceOwn : Disjoint O H) (hdisjoint : Disjoint G H)
    (hO : O ⊆ F) (hG : G ⊆ F) (hH : H ⊆ F) (hfront : Plays scene P h G front s)
    (hsource : Plays scene P h H source u)
    (hplaced : ∀ r ∈ u.items, (call.key r).Placed scene.tree)
    (hpull : pull scene (fuel + 1) (.flatMap call front source) h = .finished answer) :
    ∃ P' F', Continues scene P h F (.flatMap call front source)
      (s.append fun _ => u.flatMapAfter (call.finds scene) earlier) answer P' F' := by
  have hothers : O ∪ H ⊆ F := Set.union_subset hO hH
  obtain ⟨asked, hasked, hpull⟩ := Outcome.bind_eq_finished hpull
  obtain ⟨P₁, G₁, hfront⟩ := ih hfront (hG.trans hF) hasked
  cases hfront with
  | @found _ _ _ _ h₁ _ _ hlog hchanges hrest hreads =>
    obtain rfl := Outcome.finished.inj hpull
    have hcall₁ := (hcall.frame hchanges (hO.trans hF) hfrontOwn.symm).goOn
      fun b hb => .inr (hreads b hb)
    have hsource₁ := hsource.frame hchanges (hH.trans hF) hdisjoint
    have hchanges₁ := hchanges.beside hG hothers (hothers.trans hF)
    rw [Search.after_append, Search.cons_append]
    refine ⟨P₁, _, .found hlog hchanges₁ (.flatMap hcall₁
      (hchanges.disjoint hfrontOwn.symm (hO.trans hF)).symm hsourceOwn
      (hchanges.disjoint hdisjoint (hH.trans hF)) ?_ Set.subset_union_left ?_ hrest hsource₁
      hplaced) fun _ hb => hb.elim⟩
    · exact Set.subset_union_left.trans Set.subset_union_right
    · exact Set.subset_union_right.trans Set.subset_union_right
  | @ended _ _ h₁ _ _ hlog hchanges hrest hreads =>
    have hcall₁ : Owns scene P₁ h₁ .done call earlier O :=
      (hcall.frame hchanges (hO.trans hF) hfrontOwn.symm).goOn fun b hb => .inl (hreads b hb).2
    have hsource₁ := hsource.frame hchanges (hH.trans hF) hdisjoint
    have hchanges₁ : Changes P h F P₁ h₁ (O ∪ H) :=
      (hchanges.beside hG hothers (hothers.trans hF)).shrink Set.subset_union_right
    have hO₁ : O ⊆ h₁.cells := Set.subset_union_left.trans hchanges₁.made
    obtain ⟨asked, hasked, hpull⟩ := Outcome.bind_eq_finished hpull
    obtain ⟨P₂, H₂, hsource₂⟩ := ih hsource₁ (Set.subset_union_right.trans hchanges₁.made) hasked
    have hcall₂ {h₂ : Heap} (hchanges' : Changes P₁ h₁ H P₂ h₂ H₂) :
        Owns scene P₂ h₂ .done call earlier O :=
      hcall₁.frame hchanges' hO₁ hsourceOwn.symm
    rw [Search.after_append]
    cases hsource₂ with
    | @ended _ _ h₂ _ _ hlog' hchanges' _ _ =>
      obtain rfl := Outcome.finished.inj hpull
      have hchanges₂ : Changes P₁ h₁ (O ∪ H) P₂ h₂ O :=
        (hchanges'.beside Set.subset_union_right Set.subset_union_left hO₁).shrink
          Set.subset_union_right
      have hend : Plays scene P₂ h₂ O (.flatMap call .done .done) .stop :=
        .flatMap (hcall₂ hchanges') (Set.disjoint_empty _) (Set.disjoint_empty _)
          (Set.disjoint_empty _) subset_rfl (Set.empty_subset _) (Set.empty_subset _) .done .done
          fun _ hr => absurd hr List.not_mem_nil
      rw [Search.append, Search.after_flatMapAfter]
      have hended : Continues scene P₁ h₁ (O ∪ H) (.flatMap call front source) _ _ P₂ O :=
        .ended hlog' hchanges₂ hend fun _ hb => hb.elim
      exact ⟨P₂, O, hended.later hlog hchanges₁ fun _ hb => hb.elim⟩
    | @found _ r v rest h₂ _ _ hlog' hchanges' hsource₂ _ =>
      have hchanges₂ : Changes P₁ h₁ (O ∪ H) P₂ h₂ (H₂ ∪ O) :=
        hchanges'.beside Set.subset_union_right Set.subset_union_left hO₁
      have hown₂ : Disjoint O H₂ := (hchanges'.disjoint hsourceOwn.symm hO₁).symm
      rw [Search.items_after, Search.items_cons] at hplaced
      rw [Search.append, Search.after_flatMapAfter, Search.cons_flatMapAfter]
      by_cases hinside : inside scene r
      · simp only [if_pos hinside] at hpull
        obtain ⟨P₃, F₃, hgoesOn⟩ := continues_asked ih hchanges₂.made front source hscene
          (hcall₂ hchanges') hown₂ hsource₂ hplaced hpull
        have hnext : Continues scene P₁ h₁ (O ∪ H) (.flatMap call front source) _ _ P₃ F₃ :=
          hgoesOn.later hlog' hchanges₂ fun _ hb => hb.elim
        exact ⟨P₃, F₃, hnext.later hlog hchanges₁ fun _ hb => hb.elim⟩
      · simp only [if_neg hinside] at hpull
        cases hpull

omit hF in
/-- A pull of a single query goes on with what it makes of a candidate that it has tested. -/
theorem continues_candidate (start : Option Nat) (front : Stream) (hscene : scene.tree = .ofTree t)
    {f : Filter} {nested : Query} {captures : Bool} {r : State} {id : Nat} {ids : List Nat}
    (hid : id < scene.tree.size)
    (hwalks : Walks (nextCandidate scene f r) (nextCandidate scene f r id) ids)
    (hids : ∀ id ∈ ids, id < scene.tree.size)
    (hpull : (if scene.accepts f r id then
        (evaluate scene nested (r.enter scene.tree f.capture id) h).bind fun (found, h) =>
          pull scene fuel (.single f nested captures r (nextCandidate scene f r id)
            (atCandidate scene captures r id found)) h
      else pull scene fuel (.single f nested captures r (nextCandidate scene f r id) .done) h) =
        .finished answer) :
    ∃ P' F', Continues scene P h ∅ (.single f nested captures r start front)
      ((if scene.accepts f r id then taking scene f nested captures r id else .stop).append fun _ =>
        (ofList ids).flatMap (tested scene f nested captures r)) answer P' F' := by
  have hgoesOn {P₁ : Contents} {h₁ : Heap} {F₁ : Set Cell} {found : Stream} {u : States}
      (hchanges : Changes P h ∅ P₁ h₁ F₁) (hlog : h₁.log = h.log)
      (hplays : Plays scene P₁ h₁ F₁ found u)
      (hpull : pull scene fuel (.single f nested captures r (nextCandidate scene f r id) found) h₁ =
        .finished answer) :
      ∃ P' F', Continues scene P h ∅ (.single f nested captures r start front)
        (after [] (u.append fun _ => (ofList ids).flatMap (tested scene f nested captures r)))
        answer P' F' := by
    obtain ⟨P₂, F₂, hlater⟩ := ih (.single captures hplays hwalks hids) hchanges.made hpull
    exact ⟨P₂, F₂, hlater.later (hlog.trans (List.append_nil _).symm) hchanges fun _ hb => hb.elim⟩
  cases haccepts : scene.accepts f r id with
  | false =>
    rw [haccepts, if_neg Bool.false_ne_true] at hpull
    rw [if_neg Bool.false_ne_true]
    exact hgoesOn (.refl (Set.empty_subset _)) rfl .done hpull
  | true =>
    have henter := placed_enter hscene hid r f.capture
    rw [haccepts, if_pos rfl, evaluate_of_placed hscene henter] at hpull
    rw [if_pos rfl]
    obtain ⟨P₁, F₁, hchanges, hlog, hplays⟩ :=
      made_atCandidate (P := P) (h := h) (s := r) hscene hid f nested captures
    exact hgoesOn hchanges hlog hplays hpull

/-- From the front, and when that is at its end from what is found at the next candidate. -/
theorem continues_single (hscene : scene.tree = .ofTree t) {f : Filter} {nested : Query}
    {captures : Bool} {r : State} {next : Option Nat} {ids : List Nat}
    (hfront : Plays scene P h F front s) (hwalks : Walks (nextCandidate scene f r) next ids)
    (hids : ∀ id ∈ ids, id < scene.tree.size)
    (hpull : pull scene (fuel + 1) (.single f nested captures r next front) h = .finished answer) :
    ∃ P' F', Continues scene P h F (.single f nested captures r next front)
      (s.append fun _ => (ofList ids).flatMap (tested scene f nested captures r)) answer P' F' := by
  obtain ⟨asked, hasked, hpull⟩ := Outcome.bind_eq_finished hpull
  obtain ⟨P₁, F₁, hfront⟩ := ih hfront hF hasked
  cases hfront with
  | found hlog hchanges hrest hreads =>
    obtain rfl := Outcome.finished.inj hpull
    rw [Search.after_append, Search.cons_append]
    exact ⟨P₁, F₁, .found hlog hchanges (.single captures hrest hwalks hids) fun _ hb => hb.elim⟩
  | @ended events rest h₁ _ _ hlog hchanges hrest hreads =>
    rw [Search.after_append, Search.append]
    cases ids with
    | nil =>
      have hnone : next = none := hwalks
      subst hnone
      obtain rfl := Outcome.finished.inj hpull
      have hend : Plays scene P₁ h₁ F₁ (.single f nested captures r none .done) .stop :=
        .single captures .done hwalks hids
      exact ⟨P₁, F₁, .ended hlog hchanges hend fun _ hb => hb.elim⟩
    | cons id ids =>
      obtain ⟨rfl, hwalks⟩ := hwalks
      obtain ⟨hid, hids⟩ := List.forall_mem_cons.mp hids
      have hnoted : Changes P₁ h₁ ∅ P₁ (h₁.noteIf scene.traced (testing scene f r id)) ∅ :=
        .noteIf _ _ (Set.empty_subset _)
      have hlog₂ := h₁.log_noteIf scene.traced (testing scene f r id)
      rw [hlog, List.append_assoc] at hlog₂
      have hchanges₂ := (hchanges.shrink (Set.empty_subset _)).trans hnoted (Set.empty_subset _)
      simp only [if_pos hid] at hpull
      obtain ⟨P₂, F₂, hlater⟩ := continues_candidate ih (some id) front hscene hid hwalks hids hpull
      rw [ofList, Search.flatMap_yield, tested, Search.noteIf_eq_after, Search.after_append,
        Search.after_after]
      exact ⟨P₂, F₂, hlater.later hlog₂ hchanges₂ fun _ hb => hb.elim⟩

end Streams

/-- Every pull that comes to an end does what a pull of the search does. -/
theorem playsOn (hscene : scene.tree = .ofTree t) (fuel : Nat) : PlaysOn scene fuel := by
  induction fuel with
  | zero =>
    intro P h F stream search answer _ _ hpull
    cases hpull
  | succ fuel ih =>
    intro P h F stream search answer hplays hF hpull
    cases hplays with
    | done =>
      obtain rfl := Outcome.finished.inj hpull
      have hended : Continues scene P h F .done (after [] .stop) ⟨none, .done, h⟩ P F :=
        .ended (List.append_nil _).symm (.refl hF) .done fun _ hb => hb.elim
      exact ⟨P, F, hended⟩
    | once s =>
      obtain rfl := Outcome.finished.inj hpull
      have hfound : Continues scene P h F (.once s) (after [] (cons s .stop)) ⟨some s, .done, h⟩ P
          F :=
        .found (List.append_nil _).symm (.refl hF) .done fun _ hb => hb.elim
      exact ⟨P, F, hfound⟩
    | drained position hdrained => exact continues_drained hF hdrained hpull
    | live hbuffer hsource hcontents hown hrest hG hplays =>
      exact continues_live ih hF hbuffer hsource hcontents hown hrest hG hplays hpull
    | chain hdisjoint hG hH hfront hback =>
      exact continues_chain ih hF hdisjoint hG hH hfront hback hpull
    | extended child hreads hfront hplaced =>
      exact continues_extended ih hF hreads hfront hplaced hpull
    | filterMap f hsource => exact continues_filterMap ih hF hsource hpull
    | flatMap hcall hfrontOwn hsourceOwn hdisjoint hO hG hH hfront hsource hplaced =>
      exact continues_flatMap ih hF hscene hcall hfrontOwn hsourceOwn hdisjoint hO hG hH hfront
        hsource hplaced hpull
    | distinct seen hsource => exact continues_distinct ih hF hsource hpull
    | orElse fallback hsource => exact continues_orElse ih hF hsource hpull
    | first hsource => exact continues_first ih hF hsource hpull
    | single captures hfront hwalks hids =>
      exact continues_single ih hF hscene hfront hwalks hids hpull

/-- Asked for the first time, the stream that is made for a query does what its search does. -/
theorem pull_build (hscene : scene.tree = .ofTree t) {r : State} (hr : r.Placed scene.tree)
    (q : Query)
    (hpull : pull scene fuel (build scene q r h).1 (build scene q r h).2 = .finished answer) :
    answer.item = (scene.evaluate q r).pull.item ∧
      answer.heap.log = h.log ++ (scene.evaluate q r).pull.notes := by
  obtain ⟨P, F, hchanges, hlog, hplays⟩ :=
    (made hscene hr q : Made scene (fun _ => []) h _ (scene.evaluate q r))
  obtain ⟨P', F', hcontinues⟩ := playsOn hscene fuel hplays hchanges.made hpull
  rw [← hlog]
  exact hcontinues.item_and_log

end Cells

end TreeQuery
