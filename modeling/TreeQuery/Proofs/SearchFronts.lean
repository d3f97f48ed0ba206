import TreeQuery.Proofs.SearchLaws

/-! A search from its front: some notes, and then an item or the end. What an operation makes of a
search begins with the notes of the search, so that a pull of the one can be told from a pull of the
other. -/

namespace TreeQuery

namespace Search

variable {ε α β γ : Type}

/-- A search before which these events are noted. -/
def after (events : List ε) (s : Search ε α) : Search ε α :=
  events.foldr (fun e s => note e fun _ => s) s

/-- A search with a first item. -/
def cons (a : α) (s : Search ε α) : Search ε α := yield a fun _ => s

theorem after_cons (e : ε) (events : List ε) (s : Search ε α) :
    after (e :: events) s = note e fun _ => after events s := rfl

theorem exists_front (s : Search ε α) :
    ∃ events, s = after events stop ∨ ∃ a rest, s = after events (cons a rest) := by
  induction s with
  | stop => exact ⟨[], .inl rfl⟩
  | note e rest ih =>
    obtain ⟨events, h | ⟨a, later, h⟩⟩ := ih ()
    · exact ⟨e :: events, .inl (congrArg (note e) (funext fun _ => h))⟩
    · exact ⟨e :: events, .inr ⟨a, later, congrArg (note e) (funext fun _ => h)⟩⟩
  | yield a rest => exact ⟨[], .inr ⟨a, rest (), rfl⟩⟩

theorem after_after (events more : List ε) (s : Search ε α) :
    after events (after more s) = after (events ++ more) s := by
  rw [after, after, after, List.foldr_append]

theorem noteIf_eq_after (wanted : Bool) (e : ε) (rest : Unit → Search ε α) :
    noteIf wanted e rest = after (if wanted then [e] else []) (rest ()) := by
  cases wanted <;> rfl

section Pulls

theorem pull_after (events : List ε) (s : Search ε α) :
    (after events s).pull = { s.pull with notes := events ++ s.pull.notes } := by
  induction events with
  | nil => rfl
  | cons e events ih => rw [after_cons, pull, ih, List.cons_append]

theorem pull_after_stop (events : List ε) :
    (after events (stop : Search ε α)).pull = ⟨events, none, stop⟩ := by
  rw [pull_after, pull, List.append_nil]

theorem pull_after_cons (events : List ε) (a : α) (rest : Search ε α) :
    (after events (cons a rest)).pull = ⟨events, some a, rest⟩ := by
  rw [pull_after, cons, pull, List.append_nil]

theorem items_after (events : List ε) (s : Search ε α) : (after events s).items = s.items := by
  induction events with
  | nil => rfl
  | cons e events ih => exact ih

theorem items_cons (a : α) (s : Search ε α) : (cons a s).items = a :: s.items := rfl

/-- A search that a pull finds nothing in has notes only. -/
theorem eq_after_stop {s : Search ε α} (h : s.pull.item = none) :
    s = after s.pull.notes stop ∧ s.pull.rest = stop := by
  obtain ⟨events, rfl | ⟨a, rest, rfl⟩⟩ := s.exists_front
  · rw [pull_after_stop]
    exact ⟨rfl, rfl⟩
  · rw [pull_after_cons] at h
    cases h

theorem eq_after_cons {s : Search ε α} {a : α} (h : s.pull.item = some a) :
    s = after s.pull.notes (cons a s.pull.rest) := by
  obtain ⟨events, rfl | ⟨b, rest, rfl⟩⟩ := s.exists_front
  · rw [pull_after_stop] at h
    cases h
  · rw [pull_after_cons] at h ⊢
    obtain rfl : b = a := Option.some.inj h
    rfl

end Pulls

section Operations

/-- An operation that hands on the notes of a search. -/
theorem after_comm {f : Search ε α → Search ε β}
    (hf : ∀ e rest, f (note e rest) = note e fun _ => f (rest ())) (events : List ε)
    (s : Search ε α) : f (after events s) = after events (f s) := by
  induction events with
  | nil => rfl
  | cons e events ih => rw [after_cons, hf, ih, after_cons]

variable (events : List ε) (s : Search ε α)

theorem after_append (next : Unit → Search ε α) :
    (after events s).append next = after events (s.append next) :=
  after_comm (f := fun s => s.append next) (fun _ _ => rfl) events s

theorem cons_append (a : α) (next : Unit → Search ε α) :
    (cons a s).append next = cons a (s.append next) := rfl

theorem after_filterMap (f : α → Option β) :
    (after events s).filterMap f = after events (s.filterMap f) :=
  after_comm (f := filterMap f) (fun _ _ => rfl) events s

theorem cons_filterMap (a : α) (f : α → Option β) :
    (cons a s).filterMap f =
      match f a with
      | some b => cons b (s.filterMap f)
      | none => s.filterMap f := rfl

theorem after_map (f : α → β) : (after events s).map f = after events (s.map f) :=
  after_comm (f := map f) (fun _ _ => rfl) events s

theorem cons_map (a : α) (f : α → β) : (cons a s).map f = cons (f a) (s.map f) := rfl

theorem after_flatMapAfter (f : List α → α → Search ε β) (earlier : List α) :
    (after events s).flatMapAfter f earlier = after events (s.flatMapAfter f earlier) :=
  after_comm (f := flatMapAfter f earlier) (fun _ _ => rfl) events s

theorem cons_flatMapAfter (a : α) (f : List α → α → Search ε β) (earlier : List α) :
    (cons a s).flatMapAfter f earlier =
      (f earlier a).append fun _ => s.flatMapAfter f (earlier ++ [a]) := rfl

theorem after_first : (after events s).first = after events s.first :=
  after_comm (f := first) (fun _ _ => rfl) events s

theorem after_orElse (fallback : Option α) :
    (after events s).orElse fallback = after events (s.orElse fallback) :=
  after_comm (f := orElse fallback) (fun _ _ => rfl) events s

theorem after_announce (wanted : Bool) (event : α → ε) :
    (after events s).announce wanted event = after events (s.announce wanted event) :=
  after_comm (f := announce wanted event) (fun _ _ => rfl) events s

theorem cons_announce (a : α) (wanted : Bool) (event : α → ε) :
    (cons a s).announce wanted event =
      after (if wanted then [event a] else []) (cons a (s.announce wanted event)) :=
  noteIf_eq_after wanted (event a) _

theorem after_distinctFrom [BEq α] [Hashable α] (seen : Std.HashSet α) :
    (after events s).distinctFrom seen = after events (s.distinctFrom seen) :=
  after_comm (f := distinctFrom seen) (fun _ _ => rfl) events s

theorem cons_distinctFrom [BEq α] [Hashable α] (seen : Std.HashSet α) (a : α) :
    (cons a s).distinctFrom seen =
      if seen.contains a then s.distinctFrom seen
      else cons a (s.distinctFrom (seen.insert a)) := rfl

theorem orElse_none : s.orElse none = s := by
  induction s with
  | stop => rfl
  | note e rest ih => exact congrArg (note e) (funext ih)
  | yield a rest => rfl

theorem filterMap_ofList (f : α → Option β) (l : List α) :
    (ofList l : Search ε α).filterMap f = ofList (l.filterMap f) := by
  induction l with
  | nil => rfl
  | cons a l ih =>
    rw [ofList, filterMap, ih, List.filterMap_cons]
    cases f a <;> rfl

theorem iterate_eq_ofList (next : α → Option α) (bound : Nat) (start : Option α) :
    (iterate next bound start : Search ε α) =
      ofList (iterate next bound start : Search ε α).items := by
  induction bound generalizing start with
  | zero => rfl
  | succ bound ih =>
    cases start with
    | none => rfl
    | some a => exact congrArg (yield a) (funext fun _ => ih (next a))

end Operations

section Injective

variable [BEq α] [LawfulBEq α] [Hashable α] [BEq β] [LawfulBEq β] [Hashable β] {f : α → β}

/-- Whether items are told apart before or after they are carried over, the same ones remain. -/
theorem distinct_map (hf : Function.Injective f) (s : Search ε α) :
    s.distinct.map f = (s.map f).distinct := by
  have hfrom (seen : Std.HashSet α) (seen' : Std.HashSet β)
      (hseen : ∀ a, seen'.contains (f a) = seen.contains a) :
      (s.distinctFrom seen).map f = (s.map f).distinctFrom seen' := by
    induction s generalizing seen seen' with
    | stop => rfl
    | note e rest ih => exact congrArg (note e) (funext fun u => ih u seen seen' hseen)
    | yield a rest ih =>
      rw [map, distinctFrom, distinctFrom, hseen]
      cases hmem : seen.contains a with
      | true => exact ih () seen seen' hseen
      | false =>
        refine congrArg (yield (f a)) (funext fun u => ih u _ _ fun b => ?_)
        rw [Std.HashSet.contains_insert, Std.HashSet.contains_insert, hseen, Bool.eq_iff_iff]
        simp [hf.eq_iff]
  exact hfrom ∅ ∅ fun a => by simp

end Injective

theorem first_map (f : α → β) (s : Search ε α) : s.first.map f = (s.map f).first := by
  induction s with
  | stop => rfl
  | note e rest ih => exact congrArg (note e) (funext ih)
  | yield a rest => rfl

theorem filterMap_some_comp (f : α → β) (s : Search ε α) :
    s.filterMap (fun a => some (f a)) = s.map f := by
  induction s with
  | stop => rfl
  | note e rest ih => exact congrArg (note e) (funext ih)
  | yield a rest ih => exact congrArg (yield (f a)) (funext ih)

theorem map_map (f : β → γ) (g : α → β) (s : Search ε α) :
    (s.map g).map f = s.map fun a => f (g a) := by
  induction s with
  | stop => rfl
  | note e rest ih => exact congrArg (note e) (funext ih)
  | yield a rest ih => exact congrArg (yield (f (g a))) (funext ih)

end Search

end TreeQuery
