import TreeQuery.Proofs.Promises

/-! What happens to cells: new ones are made, one is held while something goes on inside it, and
what has come of that is put back. The cells are as promised all the while. -/

namespace TreeQuery

namespace Cells

variable {scene : Scene} {w w' w'' : World} {h h' : Heap} {stream : Stream} {l : List State}

namespace World

/-- The world with one more buffer, which is still empty. -/
def addBuffer (w : World) (l : List State) (level : Nat) : World :=
  { w with buffers := w.buffers.push ⟨l, level, 0⟩ }

def addTable (w : World) (q : Query) : World := { w with tables := w.tables.push q }

def keepItem (w : World) (b : Nat) : World :=
  { w with buffers := w.buffers.modify b fun p => { p with kept := p.kept + 1 } }

theorem extends_addBuffer (w : World) (l : List State) (level : Nat) :
    w.Extends (w.addBuffer l level) where
  buffer := by
    intro b p hp
    obtain ⟨hb, _⟩ := Array.getElem?_eq_some_iff.mp hp
    refine ⟨p, ?_, rfl, rfl, Nat.le_refl _⟩
    rw [addBuffer, Array.getElem?_push, if_neg (Nat.ne_of_lt hb)]
    exact hp
  table := fun ht => ht

theorem extends_addTable (w : World) (q : Query) : w.Extends (w.addTable q) where
  buffer := fun hp => ⟨_, hp, rfl, rfl, Nat.le_refl _⟩
  table := by
    intro t q' ht
    obtain ⟨hlt, _⟩ := Array.getElem?_eq_some_iff.mp ht
    rw [addTable, Array.getElem?_push, if_neg (Nat.ne_of_lt hlt)]
    exact ht

theorem getElem?_keepItem (w : World) (b c : Nat) :
    (w.keepItem b).buffers[c]? =
      w.buffers[c]?.map fun p => if b = c then { p with kept := p.kept + 1 } else p := by
  rw [keepItem, Array.getElem?_modify]
  split <;> simp

theorem extends_keepItem (w : World) (b : Nat) : w.Extends (w.keepItem b) where
  buffer := by
    intro c p hp
    refine ⟨_, by rw [getElem?_keepItem, hp, Option.map_some], ?_⟩
    split <;> simp
  table := fun ht => ht

end World

theorem Evolves.newBuffer (stream : Stream) (l : List State) (level : Nat) :
    Evolves w h (w.addBuffer l level) (h.newBuffer stream).2 where
  world := w.extends_addBuffer l level
  bufferHeld := by
    intro b
    rw [Heap.bufferHeld, Heap.newBuffer, Array.getElem?_push]
    split
    next heq => simp [Heap.bufferHeld, heq]
    next => rfl
  tableHeld := fun _ => rfl
  untouched := by
    intro b hheld
    rw [Heap.newBuffer, Array.getElem?_push, if_neg]
    rintro rfl
    simp [Heap.bufferHeld] at hheld

theorem Evolves.newTable (q : Query) : Evolves w h (w.addTable q) h.newTable.2 where
  world := w.extends_addTable q
  bufferHeld := fun _ => rfl
  tableHeld := by
    intro t
    rw [Heap.tableHeld, Heap.newTable, Array.getElem?_push]
    split
    next heq => simp [Heap.tableHeld, heq]
    next => rfl
  untouched := fun _ => rfl

@[simp] theorem Heap.buffers_noteIf (h : Heap) (wanted : Bool) (e : Event) :
    (h.noteIf wanted e).buffers = h.buffers := by
  cases wanted <;> rfl

@[simp] theorem Heap.tables_noteIf (h : Heap) (wanted : Bool) (e : Event) :
    (h.noteIf wanted e).tables = h.tables := by
  cases wanted <;> rfl

/-- Notes leave the cells alone. -/
theorem Evolves.noteIf (wanted : Bool) (e : Event) : Evolves w h w (h.noteIf wanted e) where
  world := .refl w
  bufferHeld := fun _ => by rw [Heap.bufferHeld, Heap.buffers_noteIf, Heap.bufferHeld]
  tableHeld := fun _ => by rw [Heap.tableHeld, Heap.tables_noteIf, Heap.tableHeld]
  untouched := fun _ => by rw [Heap.buffers_noteIf]

theorem Keeps.noteIf (hkeeps : Keeps scene w h) (wanted : Bool) (e : Event) :
    Keeps scene w (h.noteIf wanted e) := by
  cases wanted with
  | false => exact hkeeps
  | true => exact ⟨hkeeps.size_buffers, hkeeps.size_tables, hkeeps.buffer, hkeeps.table⟩

section Making

variable (hkeeps : Keeps scene w h)

include hkeeps

theorem Keeps.exists_buffer {b : Nat} {p : Promise} (hp : w.buffers[b]? = some p) :
    ∃ buffer, h.buffers[b]? = some buffer := by
  obtain ⟨hlt, _⟩ := Array.getElem?_eq_some_iff.mp hp
  exact ⟨_, Array.getElem?_eq_getElem (hkeeps.size_buffers ▸ hlt)⟩

theorem Keeps.exists_table {t : Nat} {q : Query} (ht : w.tables[t]? = some q) :
    ∃ table, h.tables[t]? = some table := by
  obtain ⟨hlt, _⟩ := Array.getElem?_eq_some_iff.mp ht
  exact ⟨_, Array.getElem?_eq_getElem (hkeeps.size_tables ▸ hlt)⟩

theorem Keeps.newBuffer {level : Nat} (hl : Yields scene w level stream l) :
    Keeps scene (w.addBuffer l level) (h.newBuffer stream).2 where
  size_buffers := by simp [Heap.newBuffer, World.addBuffer, hkeeps.size_buffers]
  size_tables := hkeeps.size_tables
  buffer := by
    intro b buffer p hb hp
    rw [Heap.newBuffer, Array.getElem?_push] at hb
    rw [World.addBuffer, Array.getElem?_push, ← hkeeps.size_buffers] at hp
    have hw := w.extends_addBuffer l level
    split at hb
    next heq =>
      rw [if_pos heq] at hp
      obtain rfl : _ = buffer := Option.some.inj hb
      obtain rfl : _ = p := Option.some.inj hp
      exact ⟨rfl, fun _ => ⟨l, rfl, hl.extend hw⟩⟩
    next hne =>
      rw [if_neg hne] at hp
      exact (hkeeps.buffer hb hp).extend hw
  table := fun ht hq => (hkeeps.table ht hq).extend (w.extends_addBuffer l level)

theorem Keeps.getElem?_newBuffer (stream : Stream) (l : List State) (level : Nat) :
    (w.addBuffer l level).buffers[(h.newBuffer stream).1]? = some ⟨l, level, 0⟩ := by
  rw [Heap.newBuffer, World.addBuffer, hkeeps.size_buffers, Array.getElem?_push, if_pos rfl]

theorem Keeps.newTable (q : Query) : Keeps scene (w.addTable q) h.newTable.2 where
  size_buffers := hkeeps.size_buffers
  size_tables := by simp [Heap.newTable, World.addTable, hkeeps.size_tables]
  buffer := fun hb hp => (hkeeps.buffer hb hp).extend (w.extends_addTable q)
  table := by
    intro t table q' ht hq
    rw [Heap.newTable, Array.getElem?_push] at ht
    rw [World.addTable, Array.getElem?_push, ← hkeeps.size_tables] at hq
    split at ht
    next =>
      obtain rfl : _ = table := Option.some.inj ht
      intro s b hb
      simp at hb
    next hne =>
      rw [if_neg hne] at hq
      exact (hkeeps.table ht hq).extend (w.extends_addTable q)

theorem Keeps.getElem?_newTable (q : Query) :
    (w.addTable q).tables[h.newTable.1]? = some q := by
  rw [Heap.newTable, World.addTable, hkeeps.size_tables, Array.getElem?_push, if_pos rfl]

end Making

section Holding

variable {b t : Nat} {buffer buffer' : Buffer} {table table' : Table}

theorem getElem?_setIfInBounds {α : Type} (xs : Array α) (i : Nat) (x : α) (j : Nat) :
    (xs.setIfInBounds i x)[j]? = if i = j then xs[j]?.map fun _ => x else xs[j]? := by
  rw [Array.getElem?_setIfInBounds]
  split
  next heq =>
    subst heq
    split
    next hlt => rw [Array.getElem?_eq_getElem hlt, Option.map_some]
    next hge => rw [Array.getElem?_eq_none (Nat.le_of_not_lt hge), Option.map_none]
  next => rfl

theorem Heap.getElem?_setBuffer (h : Heap) (b : Nat) (buffer : Buffer) (c : Nat) :
    (h.setBuffer b buffer).buffers[c]? =
      if b = c then h.buffers[c]?.map fun _ => buffer else h.buffers[c]? :=
  getElem?_setIfInBounds h.buffers b buffer c

theorem Heap.getElem?_setTable (h : Heap) (t : Nat) (table : Table) (c : Nat) :
    (h.setTable t table).tables[c]? =
      if t = c then h.tables[c]?.map fun _ => table else h.tables[c]? :=
  getElem?_setIfInBounds h.tables t table c

theorem Heap.bufferHeld_setBuffer_of_ne {c : Nat} (hne : b ≠ c) :
    (h.setBuffer b buffer).bufferHeld c = h.bufferHeld c := by
  rw [bufferHeld, getElem?_setBuffer, if_neg hne]
  rfl

theorem Heap.bufferHeld_setBuffer (hheld : buffer.held = false) :
    (h.setBuffer b buffer).bufferHeld b = false := by
  rw [bufferHeld, getElem?_setBuffer, if_pos rfl]
  cases h.buffers[b]? with
  | none => rfl
  | some old => exact hheld

theorem Keeps.setBuffer (hkeeps : Keeps scene w h) (hw : w.Extends w')
    (hbuffers : w'.buffers.size = w.buffers.size) (htables : w'.tables = w.tables)
    (hsame : ∀ c, b ≠ c → w'.buffers[c]? = w.buffers[c]?)
    (hnew : ∀ p, w'.buffers[b]? = some p → buffer.Fulfils scene w' p) :
    Keeps scene w' (h.setBuffer b buffer) where
  size_buffers := by rw [hbuffers, ← hkeeps.size_buffers, Heap.setBuffer, Array.size_setIfInBounds]
  size_tables := htables ▸ hkeeps.size_tables
  buffer := by
    intro c found p hc hp
    rw [Heap.getElem?_setBuffer] at hc
    split at hc
    next heq =>
      subst heq
      obtain ⟨_, _, rfl⟩ := Option.map_eq_some_iff.mp hc
      exact hnew p hp
    next hne =>
      rw [hsame c hne] at hp
      exact (hkeeps.buffer hc hp).extend hw
  table := fun ht hq => (hkeeps.table ht (htables ▸ hq)).extend hw

theorem Keeps.setTable (hkeeps : Keeps scene w h)
    (hnew : ∀ q, w.tables[t]? = some q → table.Serves scene w q) :
    Keeps scene w (h.setTable t table) where
  size_buffers := hkeeps.size_buffers
  size_tables := by rw [← hkeeps.size_tables, Heap.setTable, Array.size_setIfInBounds]
  buffer := hkeeps.buffer
  table := by
    intro c found q hc hq
    rw [Heap.getElem?_setTable] at hc
    split at hc
    next heq =>
      subst heq
      obtain ⟨_, _, rfl⟩ := Option.map_eq_some_iff.mp hc
      exact hnew q hq
    next => exact hkeeps.table hc hq

section Sources

variable {p : Promise} {items : Array State} {source : Stream} {rest : List State}

theorem Keeps.hold (hkeeps : Keeps scene w h) (hbuffer : h.buffers[b]? = some buffer) :
    Keeps scene w (h.setBuffer b { buffer with held := true }) := by
  refine hkeeps.setBuffer (.refl w) rfl rfl (fun _ _ => rfl) fun p hp => ?_
  exact ⟨(hkeeps.buffer hbuffer hp).kept, fun hheld => absurd hheld (by simp)⟩

theorem Free.hold {level : Nat} (hfree : Free w h level) (hp : w.buffers[b]? = some p)
    (hlevel : p.level < level) : Free w (h.setBuffer b buffer) p.level where
  buffer := by
    intro c p' hp' hlt
    have hne : b ≠ c := by
      rintro rfl
      obtain rfl : p = p' := Option.some.inj (hp.symm.trans hp')
      omega
    rw [Heap.bufferHeld_setBuffer_of_ne hne]
    exact hfree.buffer hp' (by omega)
  table := hfree.table

/-- While a buffer is held nothing comes into it. -/
theorem Evolves.kept_eq (hh : Evolves w (h.setBuffer b buffer) w' h')
    (hkeeps' : Keeps scene w' h') (hbuffer : h.buffers[b]? = some buffer') (hheld : buffer.held)
    (hp : w'.buffers[b]? = some p) : buffer.replay.items.size = p.kept := by
  have hset : (h.setBuffer b buffer).buffers[b]? = some buffer := by
    rw [Heap.getElem?_setBuffer, if_pos rfl, hbuffer, Option.map_some]
  have hsame : h'.buffers[b]? = some buffer := by
    rw [hh.untouched (by rwa [Heap.bufferHeld, hset]), hset]
  exact (hkeeps'.buffer hsame hp).kept

theorem Keeps.exhaust (hkeeps : Keeps scene w h) (hp : w.buffers[b]? = some p)
    (hkept : items.size = p.kept) (hcontents : p.contents = items.toList) :
    Keeps scene w (h.setBuffer b ⟨⟨none, items⟩, false⟩) := by
  refine hkeeps.setBuffer (.refl w) rfl rfl (fun _ _ => rfl) fun p' hp' => ?_
  obtain rfl : p = p' := Option.some.inj (hp.symm.trans hp')
  exact ⟨hkept, fun _ => ⟨[], by simp [hcontents], rfl⟩⟩

theorem World.getElem?_keepItem_self (hp : w.buffers[b]? = some p) :
    (w.keepItem b).buffers[b]? = some { p with kept := p.kept + 1 } := by
  rw [getElem?_keepItem, hp, Option.map_some, if_pos rfl]

theorem Keeps.push {s : State} (hkeeps : Keeps scene w h) (hp : w.buffers[b]? = some p)
    (hkept : items.size = p.kept) (hcontents : p.contents = items.toList ++ s :: rest)
    (hsource : Yields scene w p.level source rest) :
    Keeps scene (w.keepItem b) (h.setBuffer b ⟨⟨some source, items.push s⟩, false⟩) := by
  have hw := w.extends_keepItem b
  refine hkeeps.setBuffer hw (by simp [World.keepItem]) rfl (fun c hc => ?_) fun p' hp' => ?_
  · rw [World.getElem?_keepItem]
    simp [hc]
  · rw [World.getElem?_keepItem_self hp] at hp'
    obtain rfl : _ = p' := Option.some.inj hp'
    refine ⟨by simp [hkept], fun _ => ⟨rest, by simp [hcontents], hsource.extend hw⟩⟩

end Sources

/-- What goes on while a buffer is held, and is put back afterwards. -/
theorem Evolves.holdBuffer (hfree : h.bufferHeld b = false)
    (hh : Evolves w (h.setBuffer b buffer) w' h') (hw : w'.Extends w'')
    (hheld : buffer'.held = false) : Evolves w h w'' (h'.setBuffer b buffer') where
  world := hh.world.trans hw
  bufferHeld := by
    intro c
    by_cases hc : b = c
    · subst hc
      rw [Heap.bufferHeld_setBuffer hheld, hfree]
    · rw [Heap.bufferHeld_setBuffer_of_ne hc, hh.bufferHeld, Heap.bufferHeld_setBuffer_of_ne hc]
  tableHeld := hh.tableHeld
  untouched := by
    intro c hc
    have hne : b ≠ c := by
      rintro rfl
      rw [hfree] at hc
      exact absurd hc (by simp)
    have hsame := hh.untouched (b := c) (by rwa [Heap.bufferHeld_setBuffer_of_ne hne])
    rw [Heap.getElem?_setBuffer, if_neg hne, hsame, Heap.getElem?_setBuffer, if_neg hne]

/-- What goes on while a table is held, and is put back afterwards. -/
theorem Evolves.holdTable (hfree : h.tableHeld t = false)
    (hh : Evolves w (h.setTable t table) w' h') (hheld : table'.held = false) :
    Evolves w h w' (h'.setTable t table') where
  world := hh.world
  bufferHeld := hh.bufferHeld
  tableHeld := by
    intro c
    have hput := hh.tableHeld c
    simp only [Heap.tableHeld, Heap.getElem?_setTable] at hput hfree ⊢
    split
    next heq =>
      subst heq
      rw [hfree]
      cases h'.tables[t]? with
      | none => rfl
      | some old => exact hheld
    next hne => rwa [if_neg hne] at hput
  untouched := hh.untouched

end Holding

end Cells

end TreeQuery
