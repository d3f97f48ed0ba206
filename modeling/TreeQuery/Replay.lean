import TreeQuery.Source

/-! A replay keeps the items of a one-shot source, so that they can be read again from the start.
The source is asked only by a reader that has run past the kept items, and it is let go at its
first `none`. -/

namespace TreeQuery

structure Replay (σ α : Type) where
  source : Option σ
  items : Array α := #[]

namespace Replay

variable {σ ε α β γ : Type}

def ofSource (s : σ) : Replay σ α := { source := some s }

def isExhausted (r : Replay σ α) : Bool := r.source.isNone

/-- The answer to a reader that has read `position` items. -/
def ask [Source σ ε α] (r : Replay σ α) (position : Nat) : Pull (Replay σ α) ε α :=
  match r.items[position]? with
  | some a => ⟨[], some a, r⟩
  | none =>
    match r.source with
    | none => ⟨[], none, r⟩
    | some s =>
      let asked := Source.pull s
      match asked.item with
      | some a => ⟨asked.notes, some a, ⟨some asked.rest, r.items.push a⟩⟩
      | none => ⟨asked.notes, none, ⟨none, r.items⟩⟩

structure Reader (σ α : Type) where
  replay : Replay σ α
  position : Nat := 0

namespace Reader

variable {σ ε α : Type}

section Pull

variable [Source σ ε α]

def pull (r : Reader σ α) : Pull (Reader σ α) ε α :=
  let asked := r.replay.ask r.position
  ⟨asked.notes, asked.item,
    ⟨asked.rest, if asked.item.isSome then r.position + 1 else r.position⟩⟩

instance : Source (Reader σ α) ε α where
  pull := pull

end Pull

variable [FiniteSource σ ε α]

/-- The kept items not yet read, and what the source may still give. -/
def remaining (r : Reader σ α) : Nat :=
  (r.replay.items.size - r.position) + (r.replay.source.map FiniteSource.remaining).getD 0

theorem remaining_pull_lt (r : Reader σ α) (found : r.pull.item.isSome) :
    r.pull.rest.remaining < r.remaining := by
  obtain ⟨⟨source, items⟩, position⟩ := r
  cases hi : items[position]? with
  | some a =>
    have := (Array.getElem?_eq_some_iff.mp hi).1
    simp [pull, ask, remaining, hi]
    omega
  | none =>
    have := Array.getElem?_eq_none_iff.mp hi
    cases source with
    | none => simp [pull, ask, hi] at found
    | some s =>
      cases ha : (Source.pull s).item with
      | none => simp [pull, ask, hi, ha] at found
      | some a =>
        have := FiniteSource.remaining_lt s (by simp [ha])
        simp [pull, ask, remaining, hi, ha]
        omega

theorem remaining_pull_le (r : Reader σ α) : r.pull.rest.remaining ≤ r.remaining := by
  by_cases found : r.pull.item.isSome
  · exact Nat.le_of_lt (r.remaining_pull_lt found)
  · obtain ⟨⟨source, items⟩, position⟩ := r
    cases hi : items[position]? with
    | some a => simp [pull, ask, hi] at found
    | none =>
      cases source with
      | none => simp [pull, ask, remaining, hi]
      | some s =>
        cases ha : (Source.pull s).item with
        | none => simp [pull, ask, remaining, hi, ha]
        | some a => simp [pull, ask, hi, ha] at found

instance : FiniteSource (Reader σ α) ε α where
  remaining := remaining
  remaining_le := remaining_pull_le
  remaining_lt := remaining_pull_lt

end Reader

end Replay

namespace Search

variable {ε β γ : Type}

/-- Goes on reading `s`, whose first items are already in `items`. Whatever `emit` makes of an
item is found; `done` continues with the exhausted replay. -/
def record (emit : β → Option γ) (done : Replay (Search ε β) β → Search ε γ) (items : Array β) :
    Search ε β → Search ε γ
  | stop => done ⟨none, items⟩
  | note e rest => note e fun _ => (rest ()).record emit done items
  | yield b rest =>
    match emit b with
    | some c => yield c fun _ => (rest ()).record emit done (items.push b)
    | none => (rest ()).record emit done (items.push b)

end Search

namespace Replay

variable {ε β γ : Type}

/-- Reads a replay from its first item to the end, and goes on with it, now exhausted. -/
def read (r : Replay (Search ε β) β) (emit : β → Option γ)
    (done : Replay (Search ε β) β → Search ε γ) : Search ε γ :=
  ((Search.ofList r.items.toList).filterMap emit).append fun _ =>
    match r.source with
    | none => done r
    | some s => s.record emit done r.items

end Replay

end TreeQuery
