import TreeQuery.Search.Items

/-! Searching below items with a memo finds what searching without one finds: an entry of the memo
is always the drained replay of the search that a fresh run would make. -/

namespace TreeQuery

variable {κ ε α β γ : Type}

namespace Replay

/-- The replay that is left when a search has been read to its end. -/
def drained (s : Search ε β) : Replay (Search ε β) β := ⟨none, s.items.toArray⟩

end Replay

namespace Search

theorem items_record (emit : β → Option γ) (done : Replay (Search ε β) β → Search ε γ)
    (kept : Array β) (s : Search ε β) :
    (s.record emit done kept).items =
      s.items.filterMap emit ++ (done ⟨none, kept ++ s.items.toArray⟩).items := by
  induction s generalizing kept with
  | stop => simp [record, items]
  | note e rest ih => exact ih () kept
  | yield b rest ih =>
    have hkept : kept.push b ++ (rest ()).items.toArray =
        kept ++ (b :: (rest ()).items).toArray := by
      apply Array.ext'
      simp
    cases h : emit b with
    | none => simp only [record, h, ih, hkept, items, List.filterMap_cons]
    | some c => simp only [record, h, ih, hkept, items, List.filterMap_cons, List.cons_append]

end Search

namespace Replay

theorem items_read_ofSource (s : Search ε β) (emit : β → Option γ)
    (done : Replay (Search ε β) β → Search ε γ) :
    ((ofSource s).read emit done).items = s.items.filterMap emit ++ (done (drained s)).items := by
  simp [read, ofSource, Search.items_record, drained]

theorem items_read_drained (s : Search ε β) (emit : β → Option γ)
    (done : Replay (Search ε β) β → Search ε γ) :
    ((drained s).read emit done).items = s.items.filterMap emit ++ (done (drained s)).items := by
  simp [read, drained]

end Replay

/-- Every entry is the drained replay of the search from its key. -/
def Memo.Faithful [BEq κ] [Hashable κ] (search : κ → Search ε β) (memo : Memo κ ε β) : Prop :=
  ∀ key replay, memo[key]? = some replay → replay = Replay.drained (search key)

section Memo

variable [BEq κ] [LawfulBEq κ] [Hashable κ] {search : κ → Search ε β}

theorem Memo.faithful_empty : Memo.Faithful search ∅ := by
  intro key replay h
  simp at h

theorem Memo.Faithful.insert {memo : Memo κ ε β} (h : Memo.Faithful search memo) (key : κ) :
    Memo.Faithful search (Std.HashMap.insert memo key (Replay.drained (search key))) := by
  intro other replay hr
  rw [Std.HashMap.getElem?_insert] at hr
  by_cases he : key == other
  · rw [if_pos he] at hr
    exact eq_of_beq he ▸ (Option.some.inj hr).symm
  · rw [if_neg he] at hr
    exact h other replay hr

theorem Search.items_flatMapMemo {memo : Memo κ ε β} (hm : Memo.Faithful search memo)
    (wanted : Bool) (lookup : Bool → ε) (key : α → κ) (emit : α → β → Option γ)
    (s : Search ε α) :
    (s.flatMapMemo wanted lookup key search emit memo).items =
      s.items.flatMap fun a => (search (key a)).items.filterMap (emit a) := by
  induction s generalizing memo with
  | stop => rfl
  | note e rest ih => exact ih () hm
  | yield a rest ih =>
    cases h : memo[key a]? with
    | some replay =>
      have hr := hm _ _ h
      simp only [flatMapMemo, h, hr, items_noteIf, Replay.items_read_drained, ih () hm, items,
        List.flatMap_cons]
    | none =>
      simp only [flatMapMemo, h, items_noteIf, Replay.items_read_ofSource,
        ih () (hm.insert (key a)), items, List.flatMap_cons]

end Memo

end TreeQuery
