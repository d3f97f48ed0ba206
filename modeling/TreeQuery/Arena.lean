import TreeQuery.LinkedTree

/-! The arena in which a subject is laid out. A stack holds what waits for a place, with its parent
and its position among the siblings. What is taken from the top gets the next id, if there is one
left, and joins its parent's children; then the targets of its own children wait, the first of them
on top. -/

namespace TreeQuery

namespace Arena

structure Entry where
  node : Tree Numbered
  parent : Option Nat
  children : Array Nat
  /-- Sibling positions from the root down. -/
  path : Array Nat

structure Waiting where
  node : Tree Numbered
  parent : Option Nat
  index : Nat

/-- The targets of a node's children, the node having got that id. -/
def Waiting.below (w : Waiting) (id : Nat) : List Waiting :=
  w.node.linkedChildren.mapIdx fun i t => ⟨t, some id, i⟩

end Arena

/-- Ids are places. -/
structure Arena where
  entries : Array Arena.Entry := #[]

namespace Arena

inductive Fault where
  /-- Too many nodes for a linked tree. -/
  | full
  /-- There is no place for a node whose parent has none. -/
  | orphan
deriving DecidableEq

/-- Gives a node the next id. -/
def place (arena : Arena) (w : Waiting) : Except Fault Arena :=
  if arena.entries.size < LinkedTree.capacity then
    match w.parent with
    | none => .ok ⟨arena.entries.push ⟨w.node, none, #[], #[]⟩⟩
    | some p =>
      match arena.entries[p]? with
      | none => .error .orphan
      | some above =>
        let entries := arena.entries.push ⟨w.node, some p, #[], above.path.push w.index⟩
        .ok ⟨entries.modify p fun e => { e with children := e.children.push arena.entries.size }⟩
  else .error .full

/-- Goes on until nothing waits or there is a fault, for that many rounds at most. -/
def fill : (rounds : Nat) → Arena → (stack : Array Waiting) → Option (Except Fault Arena)
  | 0, arena, stack => if stack.isEmpty then some (.ok arena) else none
  | rounds + 1, arena, stack =>
    match stack.back? with
    | none => some (.ok arena)
    | some w =>
      match arena.place w with
      | .error fault => some (.error fault)
      | .ok next => fill rounds next (stack.pop ++ (w.below arena.entries.size).reverse)

/-- The root's own targets are not asked for. -/
def layOut (rounds : Nat) (t : Tree Numbered) : Option (Except Fault Arena) :=
  fill rounds {} #[⟨t, none, 0⟩]

end Arena

end TreeQuery
