import TreeQuery.Bindings
import TreeQuery.LinkedTree

/-! Search states: the scope being searched, the next place to look at, and the captures bound so
far. A cursor of `none` lies past every node. -/

namespace TreeQuery

structure State where
  root : Nat
  cursor : Option Nat
  bindings : Bindings
deriving DecidableEq, Hashable, Inhabited

namespace State

def initial (t : LinkedTree) : State := ⟨LinkedTree.root, t.firstChild? LinkedTree.root, .empty⟩

/-- Candidates anywhere in the scope, from the cursor on. -/
def within {ε : Type} (t : LinkedTree) (s : State) : Search ε Nat := t.within s.cursor s.root

/-- The direct child of the scope at or after the cursor. -/
def aligned? (t : LinkedTree) (s : State) : Option Nat :=
  s.cursor.bind (t.directChildOf? · s.root)

/-- Candidates among the direct children of the scope. -/
def directChildren {ε : Type} (t : LinkedTree) (s : State) : Search ε Nat :=
  t.neighbors (s.aligned? t)

/-- Moves the cursor just past `id`, inside the scope. -/
def past (t : LinkedTree) (s : State) (id : Nat) : State :=
  { s with cursor := t.neighborWithin? id s.root }

/-- Moves the cursor to a direct child of the scope. -/
def align (t : LinkedTree) (s : State) : State := { s with cursor := s.aligned? t }

def startAt (s other : State) : State := { s with cursor := other.cursor }

/-- Takes the later of both cursors. -/
def notBefore (t : LinkedTree) (s other : State) : State :=
  match s.cursor, other.cursor with
  | some mine, some theirs =>
    if (t.compare mine theirs).isGT then s else { s with cursor := some theirs }
  | _, _ => { s with cursor := none }

/-- Searches the children of a matched node, bound to `capture` if there is one. -/
def enter (t : LinkedTree) (s : State) (capture : Option String) (id : Nat) : State :=
  ⟨id, t.firstChild? id, s.bindings.bind capture (t.node id)⟩

def withBindings (s : State) (b : Bindings) : State := { s with bindings := b }

end State

end TreeQuery
