import TreeQuery.State

/-! States together with the tree they belong to. The same nodes laid out twice make two trees,
which a serial number tells apart. -/

namespace TreeQuery

structure Anchored where
  serial : Nat
  tree : LinkedTree
  state : State

namespace Anchored

instance : BEq Anchored := ⟨fun a b => a.serial == b.serial && a.state == b.state⟩

instance : Hashable Anchored := ⟨fun a => mixHash (hash a.serial) (hash a.state)⟩

/-- One state for each target of a subject, in trees numbered from `serial` on. -/
def start (s : Subject) (serial : Nat) : List Anchored :=
  ((s.targets 0).filterMap s.tree?).mapIdx fun i t =>
    let tree := LinkedTree.ofTree t
    ⟨serial + i, tree, .initial tree⟩

def distinct (states : List Anchored) : List Anchored :=
  (Search.ofList states : Search Empty Anchored).distinct.items

end Anchored

end TreeQuery
