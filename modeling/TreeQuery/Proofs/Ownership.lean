import Mathlib.Data.Set.Lattice
import Mathlib.Order.CompletePartialOrder
import TreeQuery.Proofs.Building
import TreeQuery.Proofs.SearchFronts

/-! Streams play searches. The cells that a stream still changes are its own: no other stream that
is in use has them. A buffer is shared only once it has come to its end, and then it does not change
any more. So what one stream plays is not disturbed by a pull of another. -/

namespace TreeQuery

namespace Cells

inductive Cell where
  | buffer (b : Nat)
  | table (t : Nat)

namespace Heap

/-- The cells that there are. -/
def cells (h : Heap) : Set Cell :=
  {c | match c with
    | .buffer b => b < h.buffers.size
    | .table t => t < h.tables.size}

def SameAt (h h' : Heap) : Cell → Prop
  | .buffer b => h'.buffers[b]? = h.buffers[b]?
  | .table t => h'.tables[t]? = h.tables[t]?

/-- A buffer has come to its end with these items. -/
def Drained (h : Heap) (b : Nat) (l : List State) : Prop :=
  ∃ buffer, h.buffers[b]? = some buffer ∧ buffer.replay.source = none ∧
    buffer.replay.items.toList = l

end Heap

/-- What each buffer holds when it has come to its end. -/
abbrev Contents := Nat → List State

/-- When the stream ends, so has that buffer. -/
def Stream.Reads (b : Nat) : Stream → Prop
  | .reader c _ => c = b
  | .filterMap _ source => source.Reads b
  | _ => False

/-- A table has an entry for the key of each of these states, and for no other key. The entries have
come to their end, but for one that is being read. -/
structure Enters (scene : Scene) (P : Contents) (h : Heap) (front : Stream) (call : Call)
    (table : Table) (earlier : List State) : Prop where
  isSome_iff : ∀ k, table.entries[k]?.isSome ↔ k ∈ earlier.map call.key
  entry : ∀ {k b}, table.entries[k]? = some b → b < h.buffers.size ∧
    P b = scene.results call.query k ∧ (h.Drained b (P b) ∨ front.Reads b)

/-- What a single query makes of an accepted candidate. -/
def taking (scene : Scene) (f : Filter) (nested : Query) (captures : Bool) (s : State) (id : Nat) :
    States :=
  let found := (scene.evaluate nested (s.enter scene.tree f.capture id)).filterMap fun r =>
    some ((s.past scene.tree id).withBindings r.bindings)
  if captures then found.distinct else found.first

def testing (scene : Scene) (f : Filter) (s : State) (id : Nat) : Event :=
  .candidate f (scene.type (scene.tree.node id)) (scene.tree.path id) (scene.accepts f s id)

/-- What a single query does at a candidate. -/
def tested (scene : Scene) (f : Filter) (nested : Query) (captures : Bool) (s : State) (id : Nat) :
    States :=
  .noteIf scene.traced (testing scene f s id) fun _ =>
    if scene.accepts f s id then taking scene f nested captures s id else .stop

/-- What the call finds from a state, after the states for which it has been made before. -/
def Call.finds (scene : Scene) (call : Call) (earlier : List State) (s : State) : States :=
  match call.table with
  | none => (scene.evaluate call.query (call.key s)).filterMap (call.emit s)
  | some _ =>
    Search.lookUp scene.traced (fun _ => .lookup call.query) call.key (scene.evaluate call.query)
      call.emit earlier s

/-- The cell of a call is its table, if it has one. -/
inductive Owns (scene : Scene) (P : Contents) (h : Heap) (front : Stream) (call : Call)
    (earlier : List State) : Set Cell → Prop
  | nothing (htable : call.table = none) : Owns scene P h front call earlier ∅
  | table {n table} (htable : call.table = some n) (hentries : h.tables[n]? = some table)
      (henters : Enters scene P h front call table earlier) :
    Owns scene P h front call earlier {.table n}

open Search (ofList)

/-- With no cells of its own but these, a stream notes and hands over what the search does. -/
inductive Plays (scene : Scene) (P : Contents) (h : Heap) : Set Cell → Stream → States → Prop
  | done {F} : Plays scene P h F .done .stop
  | once {F} (s) : Plays scene P h F (.once s) (Scene.once s)
  | drained {F b} (position) (hdrained : h.Drained b (P b)) :
    Plays scene P h F (.reader b position) (ofList ((P b).drop position))
  /-- The reader of a buffer that has not come to its end is the only one, and has read all that is
  kept. -/
  | live {F G b buffer source search} (hbuffer : h.buffers[b]? = some buffer)
      (hsource : buffer.replay.source = some source)
      (hcontents : P b = buffer.replay.items.toList ++ search.items) (hown : .buffer b ∈ F)
      (hrest : .buffer b ∉ G) (hG : G ⊆ F) (hplays : Plays scene P h G source search) :
    Plays scene P h F (.reader b buffer.replay.items.size) search
  | chain {F G H front back s t} (hdisjoint : Disjoint G H) (hG : G ⊆ F) (hH : H ⊆ F)
      (hfront : Plays scene P h G front s) (hback : Plays scene P h H back t) :
    Plays scene P h F (.chain front back) (s.append fun _ => t)
  /-- What comes behind reads again what the front has read. -/
  | extended {F c front s search} (child) (hreads : front.Reads c)
      (hfront : Plays scene P h F front search)
      (hplaced : ∀ r ∈ s :: (P c).map (·.startAt s), r.Placed scene.tree) :
    Plays scene P h F (.chain front (extended s c child))
      (search.append fun _ =>
        (ofList (s :: (P c).map (·.startAt s))).distinct.flatMap (scene.evaluate child))
  | filterMap {F source s} (f) (hsource : Plays scene P h F source s) :
    Plays scene P h F (.filterMap f source) (s.filterMap f)
  | flatMap {F O G H front source s t call earlier} (hcall : Owns scene P h front call earlier O)
      (hfrontOwn : Disjoint O G) (hsourceOwn : Disjoint O H) (hdisjoint : Disjoint G H)
      (hO : O ⊆ F) (hG : G ⊆ F) (hH : H ⊆ F) (hfront : Plays scene P h G front s)
      (hsource : Plays scene P h H source t)
      (hplaced : ∀ r ∈ t.items, (call.key r).Placed scene.tree) :
    Plays scene P h F (.flatMap call front source)
      (s.append fun _ => t.flatMapAfter (call.finds scene) earlier)
  | distinct {F source s} (seen) (hsource : Plays scene P h F source s) :
    Plays scene P h F (.distinct seen source) (s.distinctFrom seen)
  | orElse {F source s} (fallback) (hsource : Plays scene P h F source s) :
    Plays scene P h F (.orElse fallback source) (s.orElse fallback)
  | first {F source s} (hsource : Plays scene P h F source s) :
    Plays scene P h F (.first source) s.first
  | single {F front s r ids f nested next} (captures) (hfront : Plays scene P h F front s)
      (hwalks : Walks (nextCandidate scene f r) next ids)
      (hids : ∀ id ∈ ids, id < scene.tree.size) :
    Plays scene P h F (.single f nested captures r next front)
      (s.append fun _ => (ofList ids).flatMap (tested scene f nested captures r))

/-- The cells in use were `F` and have become `F'`. Those that were not in use are as they were, as
are all buffers that had come to their end. -/
structure Changes (P : Contents) (h : Heap) (F : Set Cell) (P' : Contents) (h' : Heap)
    (F' : Set Cell) : Prop where
  cells : h.cells ⊆ h'.cells
  same : ∀ c ∈ h.cells, c ∉ F → h.SameAt h' c
  drained : ∀ {b l}, h.Drained b l → h'.Drained b l
  contents : ∀ {b}, b < h.buffers.size → P' b = P b
  within : F' ⊆ F ∪ h.cellsᶜ
  made : F' ⊆ h'.cells

variable {scene : Scene} {P P' P'' : Contents} {h h' h'' : Heap} {F F' F'' G G' H : Set Cell}
  {stream source : Stream} {search : States} {b : Nat}

theorem Heap.Drained.lt_size {l : List State} (hb : h.Drained b l) : b < h.buffers.size := by
  obtain ⟨_, hbuffer, _⟩ := hb
  exact (Array.getElem?_eq_some_iff.mp hbuffer).choose

namespace Changes

theorem refl (hF : F ⊆ h.cells) : Changes P h F P h F where
  cells := subset_rfl
  same := by
    rintro (b | t) _ _ <;> rfl
  drained := id
  contents := fun _ => rfl
  within := Set.subset_union_left
  made := hF

/-- What is in use at first may be more than is used. -/
theorem widen (hh : Changes P h F P' h' F') (hF : F ⊆ G) : Changes P h G P' h' F' where
  cells := hh.cells
  same := fun c hc hG => hh.same c hc fun hcF => hG (hF hcF)
  drained := hh.drained
  contents := hh.contents
  within := hh.within.trans (Set.union_subset_union_left _ hF)
  made := hh.made

theorem shrink (hh : Changes P h F P' h' F') (hF : F'' ⊆ F') : Changes P h F P' h' F'' where
  cells := hh.cells
  same := hh.same
  drained := hh.drained
  contents := hh.contents
  within := hF.trans hh.within
  made := hF.trans hh.made

theorem trans (hh : Changes P h F P' h' F') (hh' : Changes P' h' G P'' h'' F'')
    (hG : G ⊆ F ∪ h.cellsᶜ) : Changes P h F P'' h'' F'' where
  cells := hh.cells.trans hh'.cells
  same := by
    intro c hc hcF
    have hcG : c ∉ G := fun hcG => (hG hcG).elim hcF fun hnew => hnew hc
    have hfirst := hh.same c hc hcF
    have hsecond := hh'.same c (hh.cells hc) hcG
    cases c with
    | buffer b => exact hsecond.trans hfirst
    | table t => exact hsecond.trans hfirst
  drained := fun hb => hh'.drained (hh.drained hb)
  contents := fun hb => (hh'.contents (hh.cells (a := .buffer _) hb)).trans (hh.contents hb)
  within := by
    intro c hc
    rcases hh'.within hc with hcG | hnew
    · exact hG hcG
    · exact .inr fun hc => hnew (hh.cells hc)
  made := hh'.made

/-- More cells may be in use that are not touched. -/
theorem beside (hh : Changes P h F P' h' F') (hF : F ⊆ H) (hG : G ⊆ H) (hmade : G ⊆ h.cells) :
    Changes P h H P' h' (F' ∪ G) where
  cells := hh.cells
  same := (hh.widen hF).same
  drained := hh.drained
  contents := hh.contents
  within := Set.union_subset (hh.widen hF).within (hG.trans Set.subset_union_left)
  made := Set.union_subset hh.made (hmade.trans hh.cells)

theorem disjoint (hh : Changes P h F P' h' F') (hdisjoint : Disjoint F G) (hG : G ⊆ h.cells) :
    Disjoint F' G := by
  rw [Set.disjoint_left] at hdisjoint ⊢
  intro c hcF' hcG
  exact (hh.within hcF').elim (fun hcF => hdisjoint hcF hcG) fun hnew => hnew (hG hcG)

theorem not_mem {c : Cell} (hh : Changes P h F P' h' F') (hc : c ∈ h.cells) (hcF : c ∉ F) :
    c ∉ F' :=
  fun hcF' => (hh.within hcF').elim hcF fun hnew => hnew hc

section Cells

variable {buffer buffer' : Buffer} {table : Table} {t : Nat}

theorem noteIf (wanted : Bool) (e : Event) (hF : F ⊆ h.cells) :
    Changes P h F P (h.noteIf wanted e) F := by
  cases wanted with
  | false => exact .refl hF
  | true => exact { Changes.refl hF with }

theorem newBuffer (stream : Stream) (l : List State) :
    Changes P h ∅ (Function.update P h.buffers.size l) (h.newBuffer stream).2
      {.buffer h.buffers.size} where
  cells := by
    rintro (b | t) hc
    · have hlt : b < h.buffers.size := hc
      simp only [Heap.cells, Heap.newBuffer, Set.mem_ofPred_eq, Array.size_push]
      omega
    · exact hc
  same := by
    rintro (b | t) hc _
    · rw [Heap.SameAt, Heap.newBuffer, Array.getElem?_push, if_neg (Nat.ne_of_lt hc)]
    · rfl
  drained := by
    rintro b l hb
    have hne := Nat.ne_of_lt hb.lt_size
    obtain ⟨buffer, hbuffer, hend⟩ := hb
    refine ⟨buffer, ?_, hend⟩
    rwa [Heap.newBuffer, Array.getElem?_push, if_neg hne]
  contents := fun hb => Function.update_of_ne (Nat.ne_of_lt hb) _ _
  within := by
    rintro c rfl
    exact .inr (Nat.lt_irrefl h.buffers.size)
  made := by
    rintro c rfl
    simp [Heap.cells, Heap.newBuffer]

theorem newTable : Changes P h ∅ P h.newTable.2 {.table h.tables.size} where
  cells := by
    rintro (b | t) hc
    · exact hc
    · have hlt : t < h.tables.size := hc
      simp only [Heap.cells, Heap.newTable, Set.mem_ofPred_eq, Array.size_push]
      omega
  same := by
    rintro (b | t) hc _
    · rfl
    · rw [Heap.SameAt, Heap.newTable, Array.getElem?_push, if_neg (Nat.ne_of_lt hc)]
  drained := id
  contents := fun _ => rfl
  within := by
    rintro c rfl
    exact .inr (Nat.lt_irrefl h.tables.size)
  made := by
    rintro c rfl
    simp [Heap.cells, Heap.newTable]

theorem setTable (ht : t < h.tables.size) :
    Changes P h {.table t} P (h.setTable t table) {.table t} where
  cells := by
    rintro (b | t) hc
    · exact hc
    · simpa [Heap.cells, Heap.setTable] using hc
  same := by
    rintro (b | c) _ hne
    · rfl
    · have htc : t ≠ c := fun he => hne (he ▸ rfl)
      rw [Heap.SameAt, Heap.getElem?_setTable, if_neg htc]
  drained := id
  contents := fun _ => rfl
  within := Set.subset_union_left
  made := by
    rintro c rfl
    simpa [Heap.cells, Heap.setTable] using ht

/-- A buffer that still has its source may change. -/
theorem setBuffer (hb : h.buffers[b]? = some buffer) (hsource : buffer.replay.source.isSome) :
    Changes P h {.buffer b} P (h.setBuffer b buffer') {.buffer b} where
  cells := by
    rintro (c | t) hc
    · simpa [Heap.cells, Heap.setBuffer] using hc
    · exact hc
  same := by
    rintro (c | t) _ hne
    · have hbc : b ≠ c := fun he => hne (he ▸ rfl)
      rw [Heap.SameAt, Heap.getElem?_setBuffer, if_neg hbc]
    · rfl
  drained := by
    rintro c l ⟨other, hother, hnone, hitems⟩
    have hbc : b ≠ c := by
      rintro rfl
      obtain rfl : buffer = other := Option.some.inj (hb.symm.trans hother)
      rw [hnone] at hsource
      cases hsource
    refine ⟨other, ?_, hnone, hitems⟩
    rwa [Heap.getElem?_setBuffer, if_neg hbc]
  contents := fun _ => rfl
  within := Set.subset_union_left
  made := by
    rintro c rfl
    simpa [Heap.cells, Heap.setBuffer] using (Array.getElem?_eq_some_iff.mp hb).choose

end Cells

end Changes

theorem Heap.log_noteIf (h : Heap) (wanted : Bool) (e : Event) :
    (h.noteIf wanted e).log = h.log ++ if wanted then [e] else [] := by
  cases wanted with
  | false => exact (List.append_nil _).symm
  | true => rfl

section Calls

variable {O : Set Cell} {front rest : Stream} {call : Call} {table : Table} {earlier : List State}

theorem Enters.extend (henters : Enters scene P h front call table earlier)
    (hh : Changes P h G P' h' G') : Enters scene P' h' front call table earlier where
  isSome_iff := henters.isSome_iff
  entry := by
    intro k b hb
    obtain ⟨hlt, hresults, hend⟩ := henters.entry hb
    rw [hh.contents hlt]
    exact ⟨hh.cells (a := .buffer b) hlt, hresults, hend.imp_left hh.drained⟩

theorem Owns.frame (hcall : Owns scene P h front call earlier O) (hh : Changes P h G P' h' G')
    (hO : O ⊆ h.cells) (hdisjoint : Disjoint G O) : Owns scene P' h' front call earlier O := by
  cases hcall with
  | nothing htable => exact .nothing htable
  | @table n _ htable hentries henters =>
    have hsame := hh.same _ (hO rfl) (Set.disjoint_right.mp hdisjoint rfl)
    exact .table htable (hsame.trans hentries) (henters.extend hh)

/-- The front may go on, unless it leaves an entry that it has not read to its end. -/
theorem Owns.goOn (hcall : Owns scene P h front call earlier O)
    (hreads : ∀ b, front.Reads b → h.Drained b (P b) ∨ rest.Reads b) :
    Owns scene P h rest call earlier O := by
  cases hcall with
  | nothing htable => exact .nothing htable
  | table htable hentries henters =>
    refine .table htable hentries ⟨henters.isSome_iff, fun hb => ?_⟩
    obtain ⟨hlt, hresults, hend⟩ := henters.entry hb
    exact ⟨hlt, hresults, hend.elim .inl (hreads _)⟩

end Calls

namespace Plays

theorem mono (hplays : Plays scene P h F stream search) (hF : F ⊆ G) :
    Plays scene P h G stream search := by
  induction hplays generalizing G with
  | done => exact .done
  | once s => exact .once s
  | drained position hdrained => exact .drained position hdrained
  | live hbuffer hsource hcontents hown hrest hG hplays =>
    exact .live hbuffer hsource hcontents (hF hown) hrest (hG.trans hF) hplays
  | chain hdisjoint hG hH hfront hback =>
    exact .chain hdisjoint (hG.trans hF) (hH.trans hF) hfront hback
  | extended child hreads _ hplaced ih => exact .extended child hreads (ih hF) hplaced
  | filterMap f _ ih => exact .filterMap f (ih hF)
  | flatMap hcall hfrontOwn hsourceOwn hdisjoint hO hG hH hfront hsource hplaced =>
    exact .flatMap hcall hfrontOwn hsourceOwn hdisjoint (hO.trans hF) (hG.trans hF) (hH.trans hF)
      hfront hsource hplaced
  | distinct seen _ ih => exact .distinct seen (ih hF)
  | orElse fallback _ ih => exact .orElse fallback (ih hF)
  | first _ ih => exact .first (ih hF)
  | single captures _ hwalks hids ih => exact .single captures (ih hF) hwalks hids

theorem lt_size_of_reads (hplays : Plays scene P h F stream search) (hreads : stream.Reads b) :
    b < h.buffers.size := by
  induction hplays with
  | drained _ hdrained =>
    obtain rfl := hreads
    exact hdrained.lt_size
  | live hbuffer =>
    obtain rfl := hreads
    exact (Array.getElem?_eq_some_iff.mp hbuffer).choose
  | filterMap _ _ ih => exact ih hreads
  | _ => exact hreads.elim

/-- A stream goes on playing the same while only the cells of others change. -/
theorem frame (hplays : Plays scene P h F stream search) (hh : Changes P h G P' h' G')
    (hF : F ⊆ h.cells) (hdisjoint : Disjoint G F) : Plays scene P' h' F stream search := by
  induction hplays with
  | done => exact .done
  | once s => exact .once s
  | drained position hdrained =>
    have hcontents := hh.contents hdrained.lt_size
    rw [← hcontents] at hdrained ⊢
    exact .drained position (hh.drained hdrained)
  | live hbuffer hsource hcontents hown hrest hG hplays ih =>
    have hsame := hh.same _ (hF hown) (Set.disjoint_right.mp hdisjoint hown)
    rw [← hh.contents (hF hown)] at hcontents
    exact .live (hsame.trans hbuffer) hsource hcontents hown hrest hG
      (ih (hG.trans hF) (hdisjoint.mono_right hG))
  | chain hdisjoint' hG hH _ _ hfront hback =>
    exact .chain hdisjoint' hG hH (hfront (hG.trans hF) (hdisjoint.mono_right hG))
      (hback (hH.trans hF) (hdisjoint.mono_right hH))
  | extended child hreads hfront hplaced ih =>
    have hcontents := hh.contents (hfront.lt_size_of_reads hreads)
    rw [← hcontents] at hplaced ⊢
    exact .extended child hreads (ih hF hdisjoint) hplaced
  | filterMap f _ ih => exact .filterMap f (ih hF hdisjoint)
  | flatMap hcall hfrontOwn hsourceOwn hdisjoint' hO hG hH _ _ hplaced hfront hsource =>
    exact .flatMap (hcall.frame hh (hO.trans hF) (hdisjoint.mono_right hO)) hfrontOwn hsourceOwn
      hdisjoint' hO hG hH (hfront (hG.trans hF) (hdisjoint.mono_right hG))
      (hsource (hH.trans hF) (hdisjoint.mono_right hH)) hplaced
  | distinct seen _ ih => exact .distinct seen (ih hF hdisjoint)
  | orElse fallback _ ih => exact .orElse fallback (ih hF hdisjoint)
  | first _ ih => exact .first (ih hF hdisjoint)
  | single captures _ hwalks hids ih => exact .single captures (ih hF hdisjoint) hwalks hids

end Plays

end Cells

end TreeQuery
