import TreeQuery.Evaluate

/-! Matching a query against a subject: the distinct captures of every match, in the order in which
they are discovered. -/

namespace TreeQuery

structure MatchConfig where
  /-- Whether containers keep what their children find. This changes no match. -/
  replayCache : Bool := true
deriving DecidableEq, Inhabited

structure Matcher where
  config : MatchConfig := {}
  kind : NodeKind := .plain
  predicate : Option PropertyTest := none
  /-- Whether a search notes what it does. -/
  traced : Bool := false

namespace Matcher

def scene (m : Matcher) (s : Subject) (tree : LinkedTree) : Scene where
  tree := tree
  type := s.type
  acceptance := m.kind.acceptance m.predicate s
  memoize := m.config.replayCache
  traced := m.traced

/-- The states found in the tree below one node, which is its root. -/
def searchBelow (m : Matcher) (q : Query) (s : Subject) (node : Nat) : States :=
  match s.tree? node with
  | none => .stop
  | some t =>
    let tree := LinkedTree.ofTree t
    (m.scene s tree).evaluate q (.initial tree)

def foundEvent (s : Subject) (b : Bindings) : Event :=
  .found (b.entries.map fun e => (e.1, s.type e.2))

def search (m : Matcher) (q : Query) (s : Subject) : Search Event Bindings :=
  let found := ((Search.ofList (s.targets 0)).flatMap (m.searchBelow q s)).map State.bindings
  found.distinct.announce m.traced (foundEvent s)

/-- Whether there is a match; the search ends at the first. -/
def hasMatch (m : Matcher) (q : Query) (s : Subject) : Bool := (m.search q s).pull.item.isSome

end Matcher

end TreeQuery
