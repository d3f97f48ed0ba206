import TreeQuery.Subject
import TreeQuery.Search

/-! Linked trees: a tree laid out in pre-order, each node knowing its ancestors, its sibling
positions from the root down, and its children. Ids are places in the layout, and have 32 bits. -/

namespace TreeQuery

structure Link where
  /-- The number of the subject node. -/
  node : Nat
  /-- From the parent up to the root. -/
  ancestors : List Nat
  path : Array Nat

structure LinkedTree where
  links : Array Link
  children : Array (Array Nat)

namespace LinkedTree

/-- A subtree that waits to be laid out, and where it belongs. -/
structure Pending where
  tree : Tree Nat
  ancestors : List Nat
  path : Array Nat

namespace Pending

def link (p : Pending) : Link := ⟨p.tree.label, p.ancestors, p.path⟩

/-- The children of a subtree whose root has got an id. -/
def below (p : Pending) (id : Nat) : List Pending :=
  p.tree.children.mapIdx fun i t => ⟨t, id :: p.ancestors, p.path.push i⟩

def totalSize (ps : List Pending) : Nat := Tree.sizes (ps.map tree)

theorem map_tree_below (p : Pending) (id : Nat) : (p.below id).map tree = p.tree.children := by
  apply List.ext_getElem <;> simp [below]

theorem totalSize_below (p : Pending) (id : Nat) (rest : List Pending) :
    totalSize (p.below id ++ rest) < totalSize (p :: rest) := by
  simp only [totalSize, List.map_append, map_tree_below, Tree.sizes_append, List.map_cons,
    Tree.sizes, Tree.size_eq p.tree]
  omega

end Pending

/-- Lays out what waits, the first first; its children go in front of all that waits. -/
def layOut (links : Array Link) : List Pending → Array Link
  | [] => links
  | p :: rest =>
    let waiting := p.below links.size ++ rest
    layOut (links.push p.link) waiting
termination_by pending => Pending.totalSize pending
decreasing_by exact Pending.totalSize_below p links.size rest

theorem nodes_layOut (links : Array Link) (pending : List Pending) :
    (layOut links pending).toList.map Link.node =
      links.toList.map Link.node ++ Tree.preorders (pending.map Pending.tree) := by
  fun_induction layOut links pending with
  | case1 links => simp [Tree.preorders]
  | case2 links p rest waiting ih =>
    rw [ih]
    simp [waiting, Pending.map_tree_below, Tree.preorders, Tree.preorders_append,
      Tree.preorder_eq p.tree, Pending.link]

/-- The ids below each id, from the parents of all. -/
def childTable (links : Array Link) : Array (Array Nat) :=
  links.toList.zipIdx.foldl
    (fun table entry =>
      match entry.1.ancestors with
      | [] => table
      | parent :: _ => table.modify parent (·.push entry.2))
    (Array.replicate links.size #[])

/-- However many nodes there are. -/
def ofTree (t : Tree Nat) : LinkedTree :=
  let links := layOut #[] [⟨t, [], #[]⟩]
  ⟨links, childTable links⟩

theorem nodes_ofTree (t : Tree Nat) : (ofTree t).links.toList.map Link.node = t.preorder := by
  simp [ofTree, nodes_layOut, Tree.preorders]

def size (t : LinkedTree) : Nat := t.links.size

/-- How many ids there are. -/
def capacity : Nat := 4294967296

/-- The layout of a tree that has an id for each of its nodes. -/
def build? (t : Tree Nat) : Option LinkedTree :=
  let tree := ofTree t
  if tree.size ≤ capacity then some tree else none

def isEmpty (t : LinkedTree) : Bool := t.links.isEmpty

def root : Nat := 0

def node (t : LinkedTree) (id : Nat) : Nat := (t.links[id]?.map Link.node).getD 0

def ancestors (t : LinkedTree) (id : Nat) : List Nat := (t.links[id]?.map Link.ancestors).getD []

def path (t : LinkedTree) (id : Nat) : Array Nat := (t.links[id]?.map Link.path).getD #[]

def parent? (t : LinkedTree) (id : Nat) : Option Nat := (t.ancestors id).head?

def childrenOf (t : LinkedTree) (id : Nat) : Array Nat := t.children[id]?.getD #[]

def firstChild? (t : LinkedTree) (id : Nat) : Option Nat := (t.childrenOf id)[0]?

def directNeighbor? (t : LinkedTree) (id : Nat) : Option Nat :=
  match t.parent? id, (t.path id).back? with
  | some parent, some index => (t.childrenOf parent)[index + 1]?
  | _, _ => none

/-- The next sibling of the first id that has one; the climb ends at `ancestor`. -/
def firstNeighbor? (t : LinkedTree) (ancestor : Nat) : List Nat → Option Nat
  | [] => none
  | id :: up =>
    if id = ancestor then none
    else
      match t.directNeighbor? id with
      | some next => some next
      | none => t.firstNeighbor? ancestor up

/-- The next sibling of `id` or of its closest ancestor that has one, inside `ancestor`. -/
def neighborWithin? (t : LinkedTree) (id ancestor : Nat) : Option Nat :=
  t.firstNeighbor? ancestor (id :: t.ancestors id)

/-- What follows `id` in pre-order, inside `ancestor`. -/
def nextWithin? (t : LinkedTree) (id ancestor : Nat) : Option Nat :=
  match t.firstChild? id with
  | some child => some child
  | none => t.neighborWithin? id ancestor

/-- The last id before `parent` on the way up from `id`. -/
def lastBefore? (parent : Nat) : (id : Nat) → (up : List Nat) → Option Nat
  | _, [] => none
  | id, next :: up => if next = parent then some id else lastBefore? parent next up

/-- A child of `parent` is itself; from deeper inside, the child that follows. -/
def directChildOf? (t : LinkedTree) (id parent : Nat) : Option Nat :=
  if t.parent? id = some parent then some id
  else (lastBefore? parent id (t.ancestors id)).bind t.directNeighbor?

/-- Tree order: by the sibling positions from the root down. -/
def compare (t : LinkedTree) (a b : Nat) : Ordering :=
  if a = b then .eq else Ord.compare (t.path a).toList (t.path b).toList

/-- From `start` on in pre-order to the end of the subtree of `ancestor`. -/
def within {ε : Type} (t : LinkedTree) (start : Option Nat) (ancestor : Nat) : Search ε Nat :=
  .iterate (t.nextWithin? · ancestor) t.size start

def neighbors {ε : Type} (t : LinkedTree) (start : Option Nat) : Search ε Nat :=
  .iterate t.directNeighbor? t.size start

end LinkedTree

end TreeQuery
