import TreeQuery.Fields

/-! Bindings: which subject node each capture name stands for. Entries are kept in the order of
their names, so that equal maps are equal values. -/

namespace TreeQuery

structure Bindings where
  entries : List (String × Nat)
  sorted : Sorted entries
deriving DecidableEq

namespace Bindings

instance : Hashable Bindings := ⟨fun b => hash b.entries⟩

def empty : Bindings := ⟨[], .nil⟩

instance : Inhabited Bindings := ⟨empty⟩

def insert (b : Bindings) (name : String) (node : Nat) : Bindings :=
  ⟨insertField name node b.entries, sorted_insertField b.sorted⟩

def bind (b : Bindings) (name : Option String) (node : Nat) : Bindings :=
  match name with
  | some name => b.insert name node
  | none => b

def ofList (entries : List (String × Nat)) : Bindings :=
  entries.foldl (fun b e => b.insert e.1 e.2) empty

/-- Binds one call after the other. -/
def ofCalls (calls : List (Option String × Nat)) : Bindings :=
  calls.foldl (fun b call => b.bind call.1 call.2) empty

def get? (b : Bindings) (name : String) : Option Nat := b.entries.lookup name

theorem get?_insert (b : Bindings) (name other : String) (node : Nat) :
    (b.insert name node).get? other = if other = name then some node else b.get? other :=
  lookup_insertField name other node b.entries

theorem get?_bind (b : Bindings) (name : Option String) (other : String) (node : Nat) :
    (b.bind name node).get? other = if name = some other then some node else b.get? other := by
  cases name with
  | none => rfl
  | some name =>
    rw [bind, get?_insert]
    simp only [Option.some.injEq, eq_comm]

def contains (b : Bindings) (name : String) : Bool := (b.get? name).isSome

def names (b : Bindings) : List String := b.entries.map Prod.fst

def size (b : Bindings) : Nat := b.entries.length

end Bindings

end TreeQuery
