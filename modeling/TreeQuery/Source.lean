import TreeQuery.Search

/-! Sources: things that can be asked for a next item again and again. A source may answer `none`
and still hold items, and it may never run out of them. -/

namespace TreeQuery

/-- The outcome of asking once: what was noted on the way, the item if there was one, and the
source as it is afterwards. -/
structure Pull (σ ε α : Type) where
  notes : List ε
  item : Option α
  rest : σ

class Source (σ : Type) (ε α : outParam Type) where
  pull : σ → Pull σ ε α

/-- A source out of which only finitely many items come. -/
class FiniteSource (σ : Type) (ε α : outParam Type) extends Source σ ε α where
  /-- A bound on the items still to come. -/
  remaining : σ → Nat
  remaining_le : ∀ s, remaining (pull s).rest ≤ remaining s
  remaining_lt : ∀ s, (pull s).item.isSome → remaining (pull s).rest < remaining s

namespace Source

variable {σ ε α : Type} [Source σ ε α]

def pulls : (count : Nat) → σ → List (List ε × Option α)
  | 0, _ => []
  | count + 1, s => ((pull s).notes, (pull s).item) :: pulls count (pull s).rest

/-- The source when it has been asked that many times. -/
def after : (count : Nat) → σ → σ
  | 0, s => s
  | count + 1, s => after count (pull s).rest

end Source

namespace Search

variable {ε α : Type}

def pull : Search ε α → Pull (Search ε α) ε α
  | stop => ⟨[], none, stop⟩
  | note e rest => { (rest ()).pull with notes := e :: (rest ()).pull.notes }
  | yield a rest => ⟨[], some a, rest ()⟩

theorem item_pull (s : Search ε α) : s.pull.item = s.items.head? := by
  induction s with
  | stop => rfl
  | note e rest ih => exact ih ()
  | yield a rest => rfl

theorem length_items_pull_le (s : Search ε α) : s.pull.rest.items.length ≤ s.items.length := by
  induction s with
  | stop => simp [pull]
  | note e rest ih => exact ih ()
  | yield a rest ih => simp [pull, items]

theorem length_items_pull_lt (s : Search ε α) (h : s.pull.item.isSome) :
    s.pull.rest.items.length < s.items.length := by
  induction s with
  | stop => simp [pull] at h
  | note e rest ih => exact ih () h
  | yield a rest ih => simp [pull, items]

instance : FiniteSource (Search ε α) ε α where
  pull := pull
  remaining s := s.items.length
  remaining_le := length_items_pull_le
  remaining_lt := length_items_pull_lt

end Search

end TreeQuery
