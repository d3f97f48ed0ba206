import TreeQuery.Source

/-! A tape answers from a fixed script, in which `none` is a gap, and with `none` after its end.
Every answer is noted. -/

namespace TreeQuery

structure Tape (α : Type) where
  script : List (Option α)

namespace Tape

variable {α : Type}

def pull : Tape α → Pull (Tape α) Unit α
  | ⟨[]⟩ => ⟨[()], none, ⟨[]⟩⟩
  | ⟨answer :: script⟩ => ⟨[()], answer, ⟨script⟩⟩

instance : FiniteSource (Tape α) Unit α where
  pull := pull
  remaining t := t.script.length
  remaining_le
    | ⟨[]⟩ => by simp [pull]
    | ⟨_ :: _⟩ => by simp [pull]
  remaining_lt
    | ⟨[]⟩, h => by simp [pull] at h
    | ⟨_ :: _⟩, _ => by simp [pull]

end Tape

end TreeQuery
