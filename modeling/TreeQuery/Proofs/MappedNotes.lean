import TreeQuery.Proofs.SearchLaws

/-! Searches that note something else at the same moments. Each operation on searches commutes with
a change of the notes, as none of them looks at a note. -/

namespace TreeQuery

namespace Search

variable {ε δ α β : Type} (g : ε → δ)

def mapNotes : Search ε α → Search δ α
  | stop => stop
  | note e rest => note (g e) fun _ => (rest ()).mapNotes
  | yield a rest => yield a fun _ => (rest ()).mapNotes

@[simp] theorem items_mapNotes (s : Search ε α) : (s.mapNotes g).items = s.items := by
  induction s with
  | stop => rfl
  | note e rest ih => exact ih ()
  | yield a rest ih => exact congrArg (a :: ·) (ih ())

theorem notes_mapNotes (s : Search ε α) : (s.mapNotes g).notes = s.notes.map g := by
  induction s with
  | stop => rfl
  | note e rest ih => exact congrArg (g e :: ·) (ih ())
  | yield a rest ih => exact ih ()

theorem mapNotes_noteIf (wanted : Bool) (e : ε) (rest : Unit → Search ε α) :
    (noteIf wanted e rest).mapNotes g = noteIf wanted (g e) fun _ => (rest ()).mapNotes g := by
  cases wanted <;> rfl

theorem mapNotes_ofList (as : List α) : (ofList as).mapNotes g = ofList as := by
  induction as with
  | nil => rfl
  | cons a as ih => exact congrArg (yield a) (funext fun _ => ih)

theorem mapNotes_append (s : Search ε α) (after : Unit → Search ε α) :
    (s.append after).mapNotes g = (s.mapNotes g).append fun _ => (after ()).mapNotes g := by
  induction s with
  | stop => rfl
  | note e rest ih => exact congrArg (note (g e)) (funext ih)
  | yield a rest ih => exact congrArg (yield a) (funext ih)

theorem mapNotes_filterMap (f : α → Option β) (s : Search ε α) :
    (s.filterMap f).mapNotes g = (s.mapNotes g).filterMap f := by
  induction s with
  | stop => rfl
  | note e rest ih => exact congrArg (note (g e)) (funext ih)
  | yield a rest ih =>
    rw [filterMap, mapNotes, filterMap]
    cases f a with
    | none => exact ih ()
    | some b => exact congrArg (yield b) (funext ih)

theorem mapNotes_map (f : α → β) (s : Search ε α) :
    (s.map f).mapNotes g = (s.mapNotes g).map f := by
  induction s with
  | stop => rfl
  | note e rest ih => exact congrArg (note (g e)) (funext ih)
  | yield a rest ih => exact congrArg (yield (f a)) (funext ih)

theorem mapNotes_flatMap (f : α → Search ε β) (s : Search ε α) :
    (s.flatMap f).mapNotes g = (s.mapNotes g).flatMap fun a => (f a).mapNotes g := by
  induction s with
  | stop => rfl
  | note e rest ih => exact congrArg (note (g e)) (funext ih)
  | yield a rest ih =>
    rw [flatMap_yield, mapNotes_append, ih, mapNotes, flatMap_yield]

theorem mapNotes_flatMapAfter (f : List α → α → Search ε β) (earlier : List α) (s : Search ε α) :
    (s.flatMapAfter f earlier).mapNotes g =
      (s.mapNotes g).flatMapAfter (fun earlier a => (f earlier a).mapNotes g) earlier := by
  induction s generalizing earlier with
  | stop => rfl
  | note e rest ih => exact congrArg (note (g e)) (funext fun u => ih u earlier)
  | yield a rest ih =>
    rw [flatMapAfter, mapNotes_append, ih, mapNotes, flatMapAfter]

theorem mapNotes_lookUp {κ γ : Type} [DecidableEq κ] (wanted : Bool) (lookup : α → Bool → ε)
    (key : α → κ) (search : κ → Search ε β) (emit : α → β → Option γ) (earlier : List α) (a : α) :
    (lookUp wanted lookup key search emit earlier a).mapNotes g =
      lookUp wanted (fun a hit => g (lookup a hit)) key (fun k => (search k).mapNotes g) emit
        earlier a := by
  rw [lookUp, lookUp, mapNotes_noteIf, mapNotes_filterMap]
  split
  · rw [mapNotes_ofList, items_mapNotes]
  · rfl

theorem mapNotes_first (s : Search ε α) : s.first.mapNotes g = (s.mapNotes g).first := by
  induction s with
  | stop => rfl
  | note e rest ih => exact congrArg (note (g e)) (funext ih)
  | yield a rest => rfl

theorem mapNotes_distinct [BEq α] [Hashable α] (s : Search ε α) :
    s.distinct.mapNotes g = (s.mapNotes g).distinct := by
  have hseen (seen : Std.HashSet α) :
      (s.distinctFrom seen).mapNotes g = (s.mapNotes g).distinctFrom seen := by
    induction s generalizing seen with
    | stop => rfl
    | note e rest ih => exact congrArg (note (g e)) (funext fun u => ih u seen)
    | yield a rest ih =>
      rw [distinctFrom, mapNotes, distinctFrom]
      split
      · exact ih () seen
      · exact congrArg (yield a) (funext fun u => ih u _)
  exact hseen ∅

theorem mapNotes_orElse (fallback : Option α) (s : Search ε α) :
    (s.orElse fallback).mapNotes g = (s.mapNotes g).orElse fallback := by
  induction s with
  | stop => cases fallback <;> rfl
  | note e rest ih => exact congrArg (note (g e)) (funext ih)
  | yield a rest => rfl

theorem mapNotes_announce (wanted : Bool) (event : α → ε) (s : Search ε α) :
    (s.announce wanted event).mapNotes g =
      (s.mapNotes g).announce wanted fun a => g (event a) := by
  induction s with
  | stop => rfl
  | note e rest ih => exact congrArg (note (g e)) (funext ih)
  | yield a rest ih =>
    simp only [announce, mapNotes_noteIf, mapNotes, ih]

end Search

namespace Scene

open Search

theorem mapNotes_widen {ε δ : Type} (g : ε → δ) (s : State) (found : Search ε State)
    (run : State → Search ε State) :
    (widen s found run).mapNotes g = widen s (found.mapNotes g) fun u => (run u).mapNotes g := by
  rw [widen, widen, mapNotes_distinct, mapNotes_append, mapNotes_flatMap, mapNotes_distinct,
    mapNotes_ofList, items_mapNotes]

end Scene

end TreeQuery
