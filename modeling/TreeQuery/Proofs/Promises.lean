import TreeQuery.Cells
import TreeQuery.Proofs.Position

/-! What the cells of a search are for. Each buffer promises a list of states, and has a level: its
source reads buffers of lower levels only, so that no pull can come back to a buffer that is held.
-/

namespace TreeQuery

namespace Query

mutual

/-- A level above those of all buffers that are made for a query. -/
def rank : Query → Nat
  | single _ nested => nested.rank + 3
  | container _ children => ranks children + 2

def ranks : List Query → Nat
  | [] => 0
  | q :: qs => q.rank + 8 + ranks qs

end

end Query

/-- The root is a place of the tree, and so is the cursor, which lies in the scope. -/
structure State.Placed (t : LinkedTree) (s : State) : Prop where
  root_lt : s.root < t.size
  wellScoped : s.WellScoped t

namespace Cells

structure Promise where
  contents : List State
  level : Nat
  kept : Nat

/-- What is known of the cells: the promise of each buffer, the query of each table. -/
structure World where
  buffers : Array Promise := #[]
  tables : Array Query := #[]

/-- Promises are kept up, cells are added and items come in. -/
structure World.Extends (w w' : World) : Prop where
  buffer : ∀ {b : Nat} {p : Promise}, w.buffers[b]? = some p → ∃ p', w'.buffers[b]? = some p' ∧
    p'.contents = p.contents ∧ p'.level = p.level ∧ p.kept ≤ p'.kept
  table : ∀ {t : Nat} {q : Query}, w.tables[t]? = some q → w'.tables[t]? = some q

/-- From `start` on, `next` comes by just these. -/
def Walks (next : Nat → Option Nat) : (start : Option Nat) → List Nat → Prop
  | start, [] => start = none
  | start, id :: ids => start = some id ∧ Walks next (next id) ids

def Call.results (scene : Scene) (call : Call) : Find := fun s =>
  (scene.results call.query (call.key s)).filterMap (call.emit s)

def Call.Ready (w : World) (call : Call) : Prop :=
  ∀ t, call.table = some t → w.tables[t]? = some call.query

/-- What a single query finds at a candidate. -/
def taken (scene : Scene) (f : Filter) (nested : Query) (captures : Bool) : State → Nat →
    List State := fun s id =>
  if scene.accepts f s id then scene.below f captures (scene.results nested) s id else []

/-- Below the level `b`, a stream hands over just this list. -/
inductive Yields (scene : Scene) (w : World) : (b : Nat) → Stream → List State → Prop
  | done {b} : Yields scene w b .done []
  | once {b} (s) : Yields scene w b (.once s) [s]
  | reader {b c position : Nat} {p : Promise} (hp : w.buffers[c]? = some p) (hlevel : p.level < b)
      (hposition : position ≤ p.kept) :
    Yields scene w b (.reader c position) (p.contents.drop position)
  | chain {a b front back l m} (hab : a < b) (hfront : Yields scene w a front l)
      (hback : Yields scene w a back m) : Yields scene w b (.chain front back) (l ++ m)
  | filterMap {a b source l} (f) (hab : a < b) (hsource : Yields scene w a source l)
      (hplaced : ∀ s ∈ l, s.Placed scene.tree) :
    Yields scene w b (.filterMap f source) (l.filterMap f)
  | flatMap {a b front source l m} {call : Call} (hab : a < b) (hfront : Yields scene w a front l)
      (hsource : Yields scene w a source m) (hready : call.Ready w)
      (hrank : call.query.rank + 2 ≤ a)
      (hplaced : ∀ s ∈ m, s.Placed scene.tree ∧ (call.key s).Placed scene.tree) :
    Yields scene w b (.flatMap call front source) (l ++ m.flatMap (call.results scene))
  | distinct {a b source l} (seen) (hab : a < b) (hsource : Yields scene w a source l) :
    Yields scene w b (.distinct seen source) (l.filter fun s => !seen.contains s).eraseDups
  | orElse {a b source l} (fallback) (hab : a < b) (hsource : Yields scene w a source l) :
    Yields scene w b (.orElse fallback source) (if l.isEmpty then fallback.toList else l)
  | first {a b source l} (hab : a < b) (hsource : Yields scene w a source l) :
    Yields scene w b (.first source) (l.take 1)
  | single {a b front l ids f nested s next} (captures) (hab : a < b)
      (hfront : Yields scene w a front l) (hwalks : Walks (nextCandidate scene f s) next ids)
      (hids : ∀ id ∈ ids, id < scene.tree.size) (hrank : nested.rank + 2 ≤ a) :
    Yields scene w b (.single f nested captures s next front)
      (l ++ ids.flatMap (taken scene f nested captures s))

namespace Heap

def bufferHeld (h : Heap) (b : Nat) : Bool := (h.buffers[b]?.map Buffer.held).getD false

def tableHeld (h : Heap) (t : Nat) : Bool := (h.tables[t]?.map Table.held).getD false

end Heap

/-- The items that are kept and those that the source will give make up the promised list. While a
buffer is held its source is in use. -/
structure Buffer.Fulfils (scene : Scene) (w : World) (buffer : Buffer) (p : Promise) : Prop where
  kept : buffer.replay.items.size = p.kept
  rest : buffer.held = false → ∃ rest, p.contents = buffer.replay.items.toList ++ rest ∧
    match buffer.replay.source with
    | some source => Yields scene w p.level source rest
    | none => rest = []

/-- Each entry is a buffer for what the query finds from its key. -/
def Table.Serves (scene : Scene) (w : World) (table : Table) (q : Query) : Prop :=
  ∀ s b, table.entries[s]? = some b →
    ∃ p, w.buffers[b]? = some p ∧ p.contents = scene.results q s ∧ p.level = q.rank

structure Keeps (scene : Scene) (w : World) (h : Heap) : Prop where
  size_buffers : h.buffers.size = w.buffers.size
  size_tables : h.tables.size = w.tables.size
  buffer : ∀ {b : Nat} {buffer : Buffer} {p : Promise}, h.buffers[b]? = some buffer →
    w.buffers[b]? = some p → buffer.Fulfils scene w p
  table : ∀ {t : Nat} {table : Table} {q : Query}, h.tables[t]? = some table →
    w.tables[t]? = some q → table.Serves scene w q

/-- Nothing is held below the level `b`. -/
structure Free (w : World) (h : Heap) (b : Nat) : Prop where
  buffer : ∀ {c : Nat} {p : Promise}, w.buffers[c]? = some p → p.level < b → h.bufferHeld c = false
  table : ∀ t, h.tableHeld t = false

/-- Where it comes to from the world `w` and the heap `h`: the same cells are held, and the buffers
that are held have not been touched. -/
structure Evolves (w : World) (h : Heap) (w' : World) (h' : Heap) : Prop where
  world : w.Extends w'
  bufferHeld : ∀ b, h'.bufferHeld b = h.bufferHeld b
  tableHeld : ∀ t, h'.tableHeld t = h.tableHeld t
  untouched : ∀ {b : Nat}, h.bufferHeld b → h'.buffers[b]? = h.buffers[b]?

variable {scene : Scene} {w w' w'' : World} {h h' h'' : Heap} {b b' : Nat} {stream : Stream}
  {l : List State}

theorem World.Extends.refl (w : World) : w.Extends w :=
  ⟨fun hp => ⟨_, hp, rfl, rfl, Nat.le_refl _⟩, fun ht => ht⟩

theorem World.Extends.trans (hw : w.Extends w') (hw' : w'.Extends w'') : w.Extends w'' where
  buffer := by
    intro b p hp
    obtain ⟨p', hp', hcontents, hlevel, hkept⟩ := hw.buffer hp
    obtain ⟨p'', hp'', hcontents', hlevel', hkept'⟩ := hw'.buffer hp'
    exact ⟨p'', hp'', hcontents'.trans hcontents, hlevel'.trans hlevel, Nat.le_trans hkept hkept'⟩
  table := fun ht => hw'.table (hw.table ht)

theorem Call.Ready.extend {call : Call} (hcall : call.Ready w) (hw : w.Extends w') :
    call.Ready w' :=
  fun t ht => hw.table (hcall t ht)

namespace Yields

theorem extend (hl : Yields scene w b stream l) (hw : w.Extends w') :
    Yields scene w' b stream l := by
  induction hl with
  | done => exact .done
  | once s => exact .once s
  | reader hp hlevel hposition =>
    obtain ⟨p', hp', hcontents, hlevel', hkept⟩ := hw.buffer hp
    rw [← hcontents]
    exact .reader hp' (by omega) (by omega)
  | chain hab _ _ hfront hback => exact .chain hab hfront hback
  | filterMap f hab _ hplaced hsource => exact .filterMap f hab hsource hplaced
  | flatMap hab _ _ hready hrank hplaced hfront hsource =>
    exact .flatMap hab hfront hsource (hready.extend hw) hrank hplaced
  | distinct seen hab _ hsource => exact .distinct seen hab hsource
  | orElse fallback hab _ hsource => exact .orElse fallback hab hsource
  | first hab _ hsource => exact .first hab hsource
  | single captures hab _ hwalks hids hrank hfront =>
    exact .single captures hab hfront hwalks hids hrank

theorem mono (hl : Yields scene w b stream l) (hb : b ≤ b') : Yields scene w b' stream l := by
  cases hl with
  | done => exact .done
  | once s => exact .once s
  | reader hp hlevel hposition => exact .reader hp (by omega) hposition
  | chain hab hfront hback => exact .chain (by omega) hfront hback
  | filterMap f hab hsource hplaced => exact .filterMap f (by omega) hsource hplaced
  | flatMap hab hfront hsource hready hrank hplaced =>
    exact .flatMap (by omega) hfront hsource hready hrank hplaced
  | distinct seen hab hsource => exact .distinct seen (by omega) hsource
  | orElse fallback hab hsource => exact .orElse fallback (by omega) hsource
  | first hab hsource => exact .first (by omega) hsource
  | single captures hab hfront hwalks hids hrank =>
    exact .single captures (by omega) hfront hwalks hids hrank

end Yields

theorem Buffer.Fulfils.extend {buffer : Buffer} {p : Promise} (hp : buffer.Fulfils scene w p)
    (hw : w.Extends w') : buffer.Fulfils scene w' p where
  kept := hp.kept
  rest := by
    intro hheld
    obtain ⟨rest, hcontents, hsource⟩ := hp.rest hheld
    refine ⟨rest, hcontents, ?_⟩
    split at hsource
    · exact hsource.extend hw
    · exact hsource

theorem Table.Serves.extend {table : Table} {q : Query} (hq : table.Serves scene w q)
    (hw : w.Extends w') : table.Serves scene w' q := by
  intro s b hb
  obtain ⟨p, hp, hcontents, hlevel⟩ := hq s b hb
  obtain ⟨p', hp', hcontents', hlevel', _⟩ := hw.buffer hp
  exact ⟨p', hp', hcontents'.trans hcontents, hlevel'.trans hlevel⟩

namespace Evolves

theorem refl (w : World) (h : Heap) : Evolves w h w h :=
  ⟨.refl w, fun _ => rfl, fun _ => rfl, fun _ => rfl⟩

theorem trans (hh : Evolves w h w' h') (hh' : Evolves w' h' w'' h'') : Evolves w h w'' h'' where
  world := hh.world.trans hh'.world
  bufferHeld := fun b => (hh'.bufferHeld b).trans (hh.bufferHeld b)
  tableHeld := fun t => (hh'.tableHeld t).trans (hh.tableHeld t)
  untouched := by
    intro b hheld
    have hheld' : h'.bufferHeld b := (hh.bufferHeld b).trans hheld
    exact (hh'.untouched hheld').trans (hh.untouched hheld)

end Evolves

namespace Free

theorem mono (hfree : Free w h b') (hb : b ≤ b') : Free w h b :=
  ⟨fun hp hlevel => hfree.buffer hp (by omega), hfree.table⟩

theorem evolve (hfree : Free w h b) (hkeeps : Keeps scene w h) (hh : Evolves w h w' h') :
    Free w' h' b where
  buffer := by
    intro c p' hp' hlevel
    rw [hh.bufferHeld]
    by_cases hc : c < w.buffers.size
    · have hp := Array.getElem?_eq_getElem hc
      obtain ⟨p'', hp'', _, hsame, _⟩ := hh.world.buffer hp
      obtain rfl : p' = p'' := Option.some.inj (hp'.symm.trans hp'')
      exact hfree.buffer hp (by omega)
    · rw [← hkeeps.size_buffers] at hc
      rw [Heap.bufferHeld, Array.getElem?_eq_none (Nat.le_of_not_lt hc)]
      rfl
  table := fun t => (hh.tableHeld t).trans (hfree.table t)

end Free

end Cells

end TreeQuery
