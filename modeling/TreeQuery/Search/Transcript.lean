import TreeQuery.Search

/-! Transcripts: what a caller sees who pulls a search until its end, or until enough was found. -/

namespace TreeQuery

structure Transcript (ε α : Type) where
  items : List α := []
  /-- What each pull noted, the pull that came to the end included. -/
  notes : List (List ε) := []
  ended : Bool := false

namespace Search

variable {ε α : Type}

/-- Goes on with a pull that has noted `noted`, last first, while `wanted` more items are wanted. -/
def transcriptFrom (noted : List ε) : (wanted : Option Nat) → Search ε α → Transcript ε α
  | _, stop => { notes := [noted.reverse], ended := true }
  | wanted, note e rest => (rest ()).transcriptFrom (e :: noted) wanted
  | wanted, yield a rest =>
    let later : Transcript ε α :=
      if wanted = some 1 then {} else (rest ()).transcriptFrom [] (wanted.map (· - 1))
    { later with items := a :: later.items, notes := noted.reverse :: later.notes }

/-- Pulls until the end, or until `limit` items were found. -/
def transcript (limit : Option Nat) (s : Search ε α) : Transcript ε α :=
  if limit = some 0 then {} else s.transcriptFrom [] limit

end Search

end TreeQuery
