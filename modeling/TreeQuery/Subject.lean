import TreeQuery.Node

/-! Subjects: the trees that are searched. A subject node presents itself through its targets,
which stand in its place among its parent's children. -/

namespace TreeQuery

/-- A node of a subject: its own data, and where its targets are, each given by the sibling
positions that lead to it from the node itself. -/
structure Presented where
  element : Element
  targets : List (List Nat) := [[]]
deriving Inhabited

abbrev Numbered := Nat × Presented

namespace Tree

/-- The subtrees that stand in for a node. -/
def targets (t : Tree Numbered) : List (Tree Numbered) := t.label.2.targets.filterMap t.at?

theorem size_le_of_mem_targets {t u : Tree Numbered} (h : u ∈ t.targets) : u.size ≤ t.size := by
  obtain ⟨path, _, hu⟩ := List.mem_filterMap.mp h
  exact size_le_of_at? hu

def linkedChildren (t : Tree Numbered) : List (Tree Numbered) := t.children.flatMap targets

theorem size_lt_of_mem_linkedChildren {t u : Tree Numbered} (h : u ∈ t.linkedChildren) :
    u.size < t.size := by
  obtain ⟨c, hc, hu⟩ := List.mem_flatMap.mp h
  exact Nat.lt_of_le_of_lt (size_le_of_mem_targets hu) (size_lt_of_mem_children hc)

/-- The tree that is searched below a node: every child is replaced by its targets, and of a node
only the number is kept. -/
def unfold (t : Tree Numbered) : Tree Nat :=
  .node t.label.1 (t.linkedChildren.attach.map fun c => c.1.unfold)
termination_by t.size
decreasing_by exact size_lt_of_mem_linkedChildren c.2

theorem unfold_eq (t : Tree Numbered) :
    t.unfold = .node t.label.1 (t.linkedChildren.map unfold) := by
  rw [unfold]
  simp

end Tree

/-- The numbered subtrees in the order of their numbers, the whole tree first. -/
structure Subject where
  nodes : Array (Tree Numbered)

namespace Subject

def ofTree (t : Tree Presented) : Subject := ⟨(t.number 0).subtrees.toArray⟩

/-- A node that presents only itself, as do all below it. -/
def ofNode (n : Node) : Subject := ofTree (n.map fun e => { element := e })

def element (s : Subject) (n : Nat) : Element :=
  (s.nodes[n]?.map fun t => t.label.2.element).getD default

def type (s : Subject) (n : Nat) : String := (s.element n).type

def property? (s : Subject) (n : Nat) (name : String) : Option Value :=
  (s.element n).properties.get? name

/-- The node of that number with all below it, whatever they present. -/
def node? (s : Subject) (n : Nat) : Option Node :=
  s.nodes[n]?.map fun t => t.map fun a => a.2.element

def targets (s : Subject) (n : Nat) : List Nat :=
  match s.nodes[n]? with
  | some t => t.targets.map fun u => u.label.1
  | none => []

def tree? (s : Subject) (n : Nat) : Option (Tree Nat) := s.nodes[n]?.map Tree.unfold

end Subject

end TreeQuery
