import TreeQuery.Replay

/-! One source, read through any number of handles and readers. Every handle stands for the same
replay, and a reader started from any of them begins at the first item. -/

namespace TreeQuery

structure Session (σ ε α : Type) where
  replay : Replay σ α
  handles : Nat := 1
  /-- For each reader, how many items it has read. -/
  positions : Array Nat := #[]
  notes : Array ε := #[]

namespace Session

inductive Request where
  | reader
  | clone
  | next (reader : Nat)
  | take (reader count : Nat)
  | inspect
deriving DecidableEq

inductive Reply (α : Type) where
  | number (n : Nat)
  | item (item : Option α)
  | items (items : List α)
  | status (kept : Nat) (exhausted : Bool)

variable {σ ε α : Type}

def ofSource (s : σ) : Session σ ε α := { replay := .ofSource s }

variable [Source σ ε α]

def next (s : Session σ ε α) (reader : Nat) : Option α × Session σ ε α :=
  let position := s.positions[reader]?.getD 0
  let asked := (Replay.Reader.mk s.replay position).pull
  (asked.item, { s with
    replay := asked.rest.replay
    positions := s.positions.setIfInBounds reader asked.rest.position
    notes := s.notes ++ asked.notes })

/-- At most `count` items, ending early at the first `none`. -/
def take (reader : Nat) : (count : Nat) → Session σ ε α → List α × Session σ ε α
  | 0, s => ([], s)
  | count + 1, s =>
    match s.next reader with
    | (none, s) => ([], s)
    | (some a, s) =>
      let (items, s) := take reader count s
      (a :: items, s)

def step (s : Session σ ε α) : Request → Reply α × Session σ ε α
  | .reader => (.number s.positions.size, { s with positions := s.positions.push 0 })
  | .clone => (.number s.handles, { s with handles := s.handles + 1 })
  | .next reader => let (item, s) := s.next reader; (.item item, s)
  | .take reader count => let (items, s) := take reader count s; (.items items, s)
  | .inspect => (.status s.replay.items.size s.replay.isExhausted, s)

/-- The replies to a schedule, each with the number of times the source has answered by then. -/
def run : List Request → Session σ ε α → List (Reply α × Nat)
  | [], _ => []
  | request :: schedule, s =>
    let (reply, s) := s.step request
    (reply, s.notes.size) :: run schedule s

end Session

end TreeQuery
