import TreeQuery.Proofs.Results

/-! Equations between whole searches, with all that they note and when. Replays that are read to
their end, the memo and the buffers of `any` among them, can be said without a buffer. -/

namespace TreeQuery

namespace Search

variable {ε α β γ : Type}

theorem append_stop (s : Search ε α) : (s.append fun _ => stop) = s := by
  induction s with
  | stop => rfl
  | note e rest ih => exact congrArg (note e) (funext ih)
  | yield a rest ih => exact congrArg (yield a) (funext ih)

theorem append_assoc (s : Search ε α) (f g : Unit → Search ε α) :
    (s.append f).append g = s.append fun _ => (f ()).append g := by
  induction s with
  | stop => rfl
  | note e rest ih => exact congrArg (note e) (funext ih)
  | yield a rest ih => exact congrArg (yield a) (funext ih)

theorem noteIf_append (wanted : Bool) (e : ε) (f g : Unit → Search ε α) :
    (noteIf wanted e f).append g = noteIf wanted e fun _ => (f ()).append g := by
  cases wanted <;> rfl

theorem filterMap_some (s : Search ε α) : s.filterMap some = s := by
  induction s with
  | stop => rfl
  | note e rest ih => exact congrArg (note e) (funext ih)
  | yield a rest ih => exact congrArg (yield a) (funext ih)

theorem distinct_eq_self [BEq α] [LawfulBEq α] [Hashable α] {s : Search ε α} (h : s.items.Nodup) :
    s.distinct = s := by
  have hseen (seen : Std.HashSet α) (hnew : ∀ a ∈ s.items, seen.contains a = false) :
      s.distinctFrom seen = s := by
    induction s generalizing seen with
    | stop => rfl
    | note e rest ih => exact congrArg (note e) (funext fun u => ih u h seen hnew)
    | yield a rest ih =>
      obtain ⟨ha, hrest⟩ := List.nodup_cons.mp h
      obtain ⟨hfirst, hnew⟩ := List.forall_mem_cons.mp hnew
      rw [distinctFrom, if_neg (by simp [hfirst])]
      refine congrArg (yield a) (funext fun u => ih u hrest _ fun b hb => ?_)
      have hne : a ≠ b := fun he => ha (he ▸ hb)
      simp [hne, hnew b hb]
  exact hseen ∅ fun a _ => by simp

theorem flatMap_ofList_map (f : β → Search ε γ) (g : α → β) (l : List α) :
    (ofList (l.map g)).flatMap f = (ofList l).flatMap fun a => f (g a) := by
  induction l with
  | nil => rfl
  | cons a l ih => rw [List.map_cons, ofList, flatMap_yield, ih, ofList, flatMap_yield]

theorem record_eq_append (emit : β → Option γ) (done : Replay (Search ε β) β → Search ε γ)
    (kept : Array β) (s : Search ε β) :
    s.record emit done kept =
      (s.filterMap emit).append fun _ => done ⟨none, kept ++ s.items.toArray⟩ := by
  induction s generalizing kept with
  | stop => simp [record, filterMap, append, items]
  | note e rest ih => exact congrArg (note e) (funext fun u => ih u kept)
  | yield b rest ih =>
    have hkept : kept.push b ++ (rest ()).items.toArray =
        kept ++ (yield b rest).items.toArray := by
      apply Array.ext'
      simp [items]
    rw [record, filterMap, ← hkept]
    cases emit b with
    | none => exact ih () _
    | some c => exact congrArg (yield c) (funext fun u => ih u _)

theorem read_ofSource (emit : β → Option γ) (done : Replay (Search ε β) β → Search ε γ)
    (s : Search ε β) :
    (Replay.ofSource s).read emit done =
      (s.filterMap emit).append fun _ => done (Replay.drained s) := by
  have hread : (Replay.ofSource s).read emit done = s.record emit done #[] := rfl
  rw [hread, record_eq_append, Array.empty_append]
  rfl

/-- `flatMap` by a function that is told the items that came before. -/
def flatMapAfter (f : List α → α → Search ε β) (earlier : List α) : Search ε α → Search ε β
  | stop => stop
  | note e rest => note e fun _ => (rest ()).flatMapAfter f earlier
  | yield a rest => (f earlier a).append fun _ => (rest ()).flatMapAfter f (earlier ++ [a])

theorem flatMap_eq_flatMapAfter (f : α → Search ε β) (earlier : List α) (s : Search ε α) :
    s.flatMap f = s.flatMapAfter (fun _ => f) earlier := by
  induction s generalizing earlier with
  | stop => rfl
  | note e rest ih => exact congrArg (note e) (funext fun u => ih u earlier)
  | yield a rest ih => rw [flatMap_yield, flatMapAfter, ih]

theorem items_flatMapAfter {f : List α → α → Search ε β} {g : α → List β}
    (h : ∀ earlier a, (f earlier a).items = g a) (earlier : List α) (s : Search ε α) :
    (s.flatMapAfter f earlier).items = s.items.flatMap g := by
  induction s generalizing earlier with
  | stop => rfl
  | note e rest ih => exact ih () earlier
  | yield a rest ih => rw [flatMapAfter, items_append, h, ih, items, List.flatMap_cons]

/-- What is found from the key of `a`, read again if an earlier item had that key. -/
def lookUp {κ : Type} [DecidableEq κ] (wanted : Bool) (lookup : α → Bool → ε) (key : α → κ)
    (search : κ → Search ε β) (emit : α → β → Option γ) (earlier : List α) (a : α) : Search ε γ :=
  let hit := decide (key a ∈ earlier.map key)
  noteIf wanted (lookup a hit) fun _ =>
    (if hit then ofList (search (key a)).items else search (key a)).filterMap (emit a)

theorem items_lookUp {κ : Type} [DecidableEq κ] (wanted : Bool) (lookup : α → Bool → ε)
    (key : α → κ) (search : κ → Search ε β) (emit : α → β → Option γ) (earlier : List α) (a : α) :
    (lookUp wanted lookup key search emit earlier a).items =
      (search (key a)).items.filterMap (emit a) := by
  rw [lookUp, items_noteIf, items_filterMap]
  split
  · rw [items_ofList]
  · rfl

end Search

/-- The memo has an entry for each of these keys and for no other. -/
def Memo.Knows {κ ε β : Type} [DecidableEq κ] [Hashable κ] (search : κ → Search ε β) (keys : List κ)
    (memo : Memo κ ε β) : Prop :=
  ∀ k, memo[k]? = if k ∈ keys then some (Replay.drained (search k)) else none

section Memo

variable {κ ε α β γ : Type} [DecidableEq κ] [Hashable κ] {search : κ → Search ε β} {keys : List κ}
  {memo : Memo κ ε β} {k : κ}

theorem Memo.knows_empty : Memo.Knows search [] ∅ := by
  intro k
  simp

theorem Memo.Knows.again (h : Memo.Knows search keys memo) (hk : k ∈ keys) :
    Memo.Knows search (keys ++ [k]) memo := by
  intro other
  rw [h other]
  by_cases he : other = k
  · simp [he, hk]
  · simp [he]

theorem Memo.Knows.insert (h : Memo.Knows search keys memo) (k : κ) :
    Memo.Knows search (keys ++ [k]) (Std.HashMap.insert memo k (Replay.drained (search k))) := by
  intro other
  rw [Std.HashMap.getElem?_insert, h other]
  by_cases he : k = other
  · subst he
    simp
  · simp [he, Ne.symm he]

namespace Search

theorem flatMapMemo_eq_flatMapAfter (wanted : Bool) (lookup : Bool → ε) (key : α → κ)
    (emit : α → β → Option γ) {earlier : List α} (h : Memo.Knows search (earlier.map key) memo)
    (s : Search ε α) :
    s.flatMapMemo wanted lookup key search emit memo =
      s.flatMapAfter (lookUp wanted (fun _ => lookup) key search emit) earlier := by
  induction s generalizing memo earlier with
  | stop => rfl
  | note e rest ih => exact congrArg (note e) (funext fun u => ih u h)
  | yield a rest ih =>
    have hkeys : (earlier ++ [a]).map key = earlier.map key ++ [key a] := by
      rw [List.map_append, List.map_singleton]
    rw [flatMapMemo, flatMapAfter, lookUp, noteIf_append, h (key a)]
    by_cases hk : key a ∈ earlier.map key
    · have hrest := ih () (hkeys ▸ h.again hk)
      simp only [hk, decide_true, if_true, ← hrest]
      rfl
    · have hrest := ih () (hkeys ▸ h.insert (key a))
      simp only [hk, decide_false, Bool.false_eq_true, if_false, ← hrest, read_ofSource]

end Search

end Memo

namespace Scene

open Search

/-- What an `any` container that starts at `s` finds with one more child. -/
def widen {ε : Type} (s : State) (found : Search ε State) (run : State → Search ε State) :
    Search ε State :=
  (found.append fun _ =>
    (ofList (s :: found.items.map (·.startAt s))).distinct.flatMap run).distinct

theorem items_widen {ε : Type} (s : State) (found : Search ε State) (run : State → Search ε State) :
    (widen s found run).items = widened s found.items fun seed => (run seed).items := by
  simp only [widen, widened, items_distinct, items_append, items_flatMap, items_ofList]

theorem extend_eq_widen (s : State) (found : States) (child : Plan) :
    extend s (.ofSource found) child = .ofSource (widen s found child.run) := by
  rw [extend, read_ofSource, filterMap_some]
  rfl

theorem any_eq (optional : Bool) {children : List Plan} (hchildren : children ≠ []) (s : State) :
    any optional children s =
      ((children.map Plan.run).foldl (widen s) .stop).orElse
      (if optional then some s else none) := by
  have hfold : children.foldl (extend s) (.ofSource .stop) =
      .ofSource ((children.map Plan.run).foldl (widen s) .stop) := by
    rw [List.foldl_map]
    refine List.foldl_rel (r := fun (a : Replay States State) b => a = .ofSource b) rfl ?_
    rintro child _ _ found rfl
    exact extend_eq_widen s found child
  rw [any, if_neg (mt List.isEmpty_iff.mp hchildren), hfold, read_ofSource, filterMap_some,
    append_stop]

variable (scene : Scene) {mode : Mode}

theorem evaluate_eq_any (hmode : mode.requiresAll = false) (qs : List Query) (s : State) :
    scene.evaluate (.container mode qs) s = any (mode = .optional) (qs.map scene.plan) s := by
  rw [evaluate, plan, plans_eq_map]
  cases mode with
  | any => rfl
  | optional => rfl
  | ordered | unordered | exact => simp [Mode.requiresAll] at hmode

theorem evaluate_any_eq (hmode : mode.requiresAll = false) {qs : List Query} (hqs : qs ≠ [])
    (s : State) :
    scene.evaluate (.container mode qs) s =
      ((qs.map scene.evaluate).foldl (widen s) .stop).orElse
        (if mode = .optional then some s else none) := by
  rw [evaluate_eq_any scene hmode, any_eq _ (mt List.map_eq_nil_iff.mp hqs), List.map_map]
  simp only [decide_eq_true_eq]
  rfl

end Scene

end TreeQuery
