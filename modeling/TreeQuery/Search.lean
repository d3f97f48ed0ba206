import Std.Data.HashMap
import Std.Data.HashSet

/-! Lazy finite searches. A search notes what it examines and yields what it finds, one step at
a time; nothing after a step happens before that step's rest is asked for. -/

namespace TreeQuery

inductive Search (ε α : Type) where
  | stop
  | note (event : ε) (rest : Unit → Search ε α)
  | yield (item : α) (rest : Unit → Search ε α)

namespace Search

variable {ε α β γ κ : Type}

instance : Inhabited (Search ε α) := ⟨.stop⟩

def items : Search ε α → List α
  | stop => []
  | note _ rest => (rest ()).items
  | yield a rest => a :: (rest ()).items

def notes : Search ε α → List ε
  | stop => []
  | note e rest => e :: (rest ()).notes
  | yield _ rest => (rest ()).notes

/-- Notes an event if notes are wanted. -/
def noteIf (wanted : Bool) (event : ε) (rest : Unit → Search ε α) : Search ε α :=
  if wanted then note event rest else rest ()

def ofList : List α → Search ε α
  | [] => stop
  | a :: as => yield a fun _ => ofList as

/-- The item `start`, the one after it, and so on, `bound` at most. -/
def iterate (next : α → Option α) : (bound : Nat) → (start : Option α) → Search ε α
  | 0, _ => stop
  | _ + 1, none => stop
  | bound + 1, some a => yield a fun _ => iterate next bound (next a)

def append : Search ε α → (Unit → Search ε α) → Search ε α
  | stop, after => after ()
  | note e rest, after => note e fun _ => (rest ()).append after
  | yield a rest, after => yield a fun _ => (rest ()).append after

def filterMap (f : α → Option β) : Search ε α → Search ε β
  | stop => stop
  | note e rest => note e fun _ => (rest ()).filterMap f
  | yield a rest =>
    match f a with
    | some b => yield b fun _ => (rest ()).filterMap f
    | none => (rest ()).filterMap f

def map (f : α → β) : Search ε α → Search ε β
  | stop => stop
  | note e rest => note e fun _ => (rest ()).map f
  | yield a rest => yield (f a) fun _ => (rest ()).map f

/-- Where `f` finds nothing the search goes on at once, without going through `append`. -/
def flatMap (f : α → Search ε β) : Search ε α → Search ε β
  | stop => stop
  | note e rest => note e fun _ => (rest ()).flatMap f
  | yield a rest =>
    match f a with
    | stop => (rest ()).flatMap f
    | found => found.append fun _ => (rest ()).flatMap f

/-- The first item only: the search is not asked for anything after it. -/
def first : Search ε α → Search ε α
  | stop => stop
  | note e rest => note e fun _ => (rest ()).first
  | yield a _ => yield a fun _ => stop

/-- The items not in `seen`, each at its first occurrence. -/
def distinctFrom [BEq α] [Hashable α] (seen : Std.HashSet α) : Search ε α → Search ε α
  | stop => stop
  | note e rest => note e fun _ => (rest ()).distinctFrom seen
  | yield a rest =>
    if seen.contains a then (rest ()).distinctFrom seen
    else yield a fun _ => (rest ()).distinctFrom (seen.insert a)

def distinct [BEq α] [Hashable α] (s : Search ε α) : Search ε α := s.distinctFrom ∅

def orElse (fallback : Option α) : Search ε α → Search ε α
  | stop =>
    match fallback with
    | some a => yield a fun _ => stop
    | none => stop
  | note e rest => note e fun _ => (rest ()).orElse fallback
  | yield a rest => yield a rest

/-- Each item is noted just before it is handed over, if notes are wanted. -/
def announce (wanted : Bool) (event : α → ε) : Search ε α → Search ε α
  | stop => stop
  | note e rest => note e fun _ => (rest ()).announce wanted event
  | yield a rest =>
    noteIf wanted (event a) fun _ => yield a fun _ => (rest ()).announce wanted event

end Search

end TreeQuery
