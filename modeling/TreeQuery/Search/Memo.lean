import TreeQuery.Replay

/-! Searching below the items of a search with a memo: what has been searched from a key before is
replayed. An entry is complete before the memo is asked again, as each item is searched to the end
before the next one is looked for. -/

namespace TreeQuery

abbrev Memo (κ ε β : Type) [BEq κ] [Hashable κ] := Std.HashMap κ (Replay (Search ε β) β)

namespace Search

variable {κ ε α β γ : Type} [BEq κ] [Hashable κ]

/-- For each item, the search from its key, less what `emit` drops. `lookup` tells whether the key
was known; it is noted if notes are wanted. -/
def flatMapMemo (wanted : Bool) (lookup : Bool → ε) (key : α → κ) (search : κ → Search ε β)
    (emit : α → β → Option γ) (memo : Memo κ ε β) : Search ε α → Search ε γ
  | stop => stop
  | note e rest => note e fun _ => (rest ()).flatMapMemo wanted lookup key search emit memo
  | yield a rest =>
    match memo[key a]? with
    | some replay =>
      noteIf wanted (lookup true) fun _ => replay.read (emit a) fun _ =>
        (rest ()).flatMapMemo wanted lookup key search emit memo
    | none =>
      noteIf wanted (lookup false) fun _ =>
        (Replay.ofSource (search (key a))).read (emit a) fun replay =>
          (rest ()).flatMapMemo wanted lookup key search emit (memo.insert (key a) replay)

end Search

end TreeQuery
