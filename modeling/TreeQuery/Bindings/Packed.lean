import TreeQuery.Bindings

/-! Bindings packed into one array, where a name is found by halving. A write that changes something
makes a new array. The type does not ask for an order of the names: it is for the writes to keep
them in order, or nothing would be found again. -/

namespace TreeQuery

namespace Bindings

/-- The place of a name among that many entries: where it stands, or where it would have to. -/
inductive Position (count : Nat) where
  | found (i : Fin count)
  | absent (i : Fin (count + 1))

structure Packed where
  entries : Array (String × Nat)

namespace Packed

def entry (p : Packed) (i : Fin p.entries.size) : String × Nat := p.entries[i]

/-- Halves the stretch of `width` entries from `base` on until one entry is left. A stretch goes on
from its middle unless the name there comes after the one looked for. -/
def narrow (p : Packed) (name : String) (base width : Nat) (hpos : 0 < width)
    (hsize : base + width ≤ p.entries.size) : Fin p.entries.size :=
  if h : width = 1 then ⟨base, by omega⟩
  else if name < (p.entry ⟨base + width / 2, by omega⟩).1 then
    p.narrow name base (width - width / 2) (by omega) (by omega)
  else
    p.narrow name (base + width / 2) (width - width / 2) (by omega) (by omega)
termination_by width

/-- Judged by the one entry that is left. -/
def settle (p : Packed) (name : String) (i : Fin p.entries.size) : Position p.entries.size :=
  if (p.entry i).1 = name then .found i
  else if (p.entry i).1 < name then .absent i.succ
  else .absent i.castSucc

def position (p : Packed) (name : String) : Position p.entries.size :=
  if h : p.entries.size = 0 then .absent 0
  else p.settle name (p.narrow name 0 p.entries.size (by omega) (by omega))

def empty : Packed := ⟨#[]⟩

/-- A name that is bound to the node already needs no new array. -/
def insert (p : Packed) (name : String) (node : Nat) : Packed :=
  match p.position name with
  | .found i =>
    if (p.entry i).2 = node then p else ⟨p.entries.set i ((p.entry i).1, node)⟩
  | .absent i => ⟨(p.entries.take i).push (name, node) ++ p.entries.drop i⟩

def bind (p : Packed) (name : Option String) (node : Nat) : Packed :=
  match name with
  | some name => p.insert name node
  | none => p

def ofCalls (calls : List (Option String × Nat)) : Packed :=
  calls.foldl (fun p call => p.bind call.1 call.2) empty

def get? (p : Packed) (name : String) : Option Nat :=
  match p.position name with
  | .found i => some (p.entry i).2
  | .absent _ => none

def contains (p : Packed) (name : String) : Bool :=
  match p.position name with
  | .found _ => true
  | .absent _ => false

def size (p : Packed) : Nat := p.entries.size

/-- Equal entries, place by place. -/
def same (p q : Packed) : Bool :=
  p.size == q.size &&
    (p.entries.zip q.entries).all fun (e, f) => e.1 == f.1 && e.2 == f.2

end Packed

end Bindings

end TreeQuery
