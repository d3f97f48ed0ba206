/-! Rose trees: a label and an ordered list of children. -/

namespace TreeQuery

inductive Tree (α : Type) where
  | node (label : α) (children : List (Tree α))

namespace Tree

variable {α β : Type}

instance [Inhabited α] : Inhabited (Tree α) := ⟨.node default []⟩

def label : Tree α → α
  | node a _ => a

def children : Tree α → List (Tree α)
  | node _ ts => ts

mutual

def map (f : α → β) : Tree α → Tree β
  | node a ts => node (f a) (mapAll f ts)

def mapAll (f : α → β) : List (Tree α) → List (Tree β)
  | [] => []
  | t :: ts => t.map f :: mapAll f ts

end

mutual

def size : Tree α → Nat
  | node _ ts => sizes ts + 1

def sizes : List (Tree α) → Nat
  | [] => 0
  | t :: ts => t.size + sizes ts

end

mutual

/-- A node before its children, each child's subtree in turn. -/
def preorder : Tree α → List α
  | node a ts => a :: preorders ts

def preorders : List (Tree α) → List α
  | [] => []
  | t :: ts => t.preorder ++ preorders ts

end

mutual

/-- Every subtree, in the order of `preorder`. -/
def subtrees : Tree α → List (Tree α)
  | node a ts => node a ts :: subtreesOf ts

def subtreesOf : List (Tree α) → List (Tree α)
  | [] => []
  | t :: ts => t.subtrees ++ subtreesOf ts

end

/-- The subtree reached by the given sibling positions. -/
def at? : Tree α → List Nat → Option (Tree α)
  | t, [] => some t
  | t, i :: path => t.children[i]?.bind (·.at? path)

mutual

/-- Each label paired with its position in `preorder`, counted from `start`. -/
def number (start : Nat) : Tree α → Tree (Nat × α)
  | node a ts => node (start, a) (numberAll (start + 1) ts)

def numberAll (start : Nat) : List (Tree α) → List (Tree (Nat × α))
  | [] => []
  | t :: ts => t.number start :: numberAll (start + t.size) ts

end

theorem sizes_append (ts us : List (Tree α)) : sizes (ts ++ us) = sizes ts + sizes us := by
  induction ts with
  | nil => simp [sizes]
  | cons t ts ih => simp [sizes, ih, Nat.add_assoc]

theorem preorders_append (ts us : List (Tree α)) :
    preorders (ts ++ us) = preorders ts ++ preorders us := by
  induction ts with
  | nil => simp [preorders]
  | cons t ts ih => simp [preorders, ih]

theorem preorder_eq (t : Tree α) : t.preorder = t.label :: preorders t.children := by
  cases t; simp [preorder, label, children]

theorem size_pos (t : Tree α) : 0 < t.size := by
  cases t; simp [size]

theorem size_eq (t : Tree α) : t.size = sizes t.children + 1 := by
  cases t; simp [size, children]

theorem size_le_sizes {t : Tree α} {ts : List (Tree α)} (h : t ∈ ts) : t.size ≤ sizes ts := by
  induction ts with
  | nil => simp at h
  | cons u us ih =>
    rcases List.mem_cons.mp h with rfl | h
    · simp [sizes]
    · exact Nat.le_trans (ih h) (by simp [sizes])

theorem size_lt_of_mem_children {t u : Tree α} (h : u ∈ t.children) : u.size < t.size := by
  have := size_le_sizes h
  rw [size_eq t]
  omega

theorem size_le_of_at? {t u : Tree α} {path : List Nat} (h : t.at? path = some u) :
    u.size ≤ t.size := by
  induction path generalizing t with
  | nil =>
    simp only [at?, Option.some.injEq] at h
    simp [h]
  | cons i path ih =>
    simp only [at?, Option.bind_eq_some_iff] at h
    obtain ⟨c, hc, hu⟩ := h
    have := size_lt_of_mem_children (List.mem_of_getElem? hc)
    have := ih hu
    omega

end Tree

end TreeQuery
