import TreeQuery.Proofs.Demand
import TreeQuery.Replay.Session
import TreeQuery.Source.Tape

/-! Any number of readers of one replay, asking in whatever order. Each is answered as if it alone
had the source, and the source is asked for what the reader furthest ahead needs and for no more. -/

namespace TreeQuery

namespace Source

variable {σ ε α : Type} [Source σ ε α] {s : σ} {calls k : Nat}

/-- How often it takes to ask, after `calls` calls, until there are `count` more items or there is a
`none`. -/
def calledFor (s : σ) (calls count : Nat) : Nat :=
  min count (served s (calls + count) - calls + 1)

theorem served_le_of_item?_eq_none (h : item? s calls = none) (count : Nat) :
    served s (calls + 1 + count) ≤ calls := by
  have hsucc := served_succ s calls
  rw [h, Option.isSome_none, if_neg Bool.false_ne_true] at hsucc
  have hle := served_le s calls
  have hmin := served_of_le (s := s) (Nat.le_add_right (calls + 1) count)
  omega

theorem served_of_item?_eq_some {a : α} (h : item? s calls = some a) :
    served s (calls + 1) = calls + 1 := by
  have hitem := item?_eq (s := s) (k := calls)
  have hself : served s calls = calls := by
    by_contra hne
    simp [h, hne] at hitem
  rw [served_succ, h, Option.isSome_some, if_pos rfl, hself]

theorem item?_eq_none_of_le (h : item? s calls = none) (hk : calls ≤ k) : item? s k = none := by
  have hle : served s (calls + 1) ≤ calls := served_le_of_item?_eq_none h 0
  exact item?_eq_none_of_served_lt (n := calls + 1) (by omega) (by omega)

theorem calledFor_of_none (h : item? s calls = none) (count : Nat) :
    calledFor s calls (count + 1) = 1 := by
  have hle := served_le_of_item?_eq_none h count
  rw [calledFor, Nat.add_comm count, ← Nat.add_assoc]
  omega

theorem calledFor_of_some {a : α} (h : item? s calls = some a) (count : Nat) :
    calledFor s calls (count + 1) = 1 + calledFor s (calls + 1) count := by
  have hself := served_of_item?_eq_some h
  have hmin := served_of_le (s := s) (Nat.le_add_right (calls + 1) count)
  rw [calledFor, calledFor, Nat.add_comm count, ← Nat.add_assoc]
  omega

end Source

namespace Session

open Source

variable {σ ε α : Type} [Source σ ε α]

namespace Request

/-- Every reader that the schedule asks has been started, `readers` of them before it. -/
def validFrom (readers : Nat) : List Request → Bool
  | [] => true
  | reader :: schedule => validFrom (readers + 1) schedule
  | next r :: schedule => r < readers && validFrom readers schedule
  | take r _ :: schedule => r < readers && validFrom readers schedule
  | clone :: schedule => validFrom readers schedule
  | inspect :: schedule => validFrom readers schedule

/-- How often a reader will have asked, of which there were `calls` calls before. -/
def callsAfter (s : σ) (reader calls : Nat) : Request → Nat
  | next r => if r = reader then calls + 1 else calls
  | take r count => if r = reader then calls + calledFor s calls count else calls
  | _ => calls

end Request

/-- How often a schedule asks for the next item of a reader. -/
def calls (s : σ) (schedule : List Request) (reader : Nat) : Nat :=
  schedule.foldl (Request.callsAfter s reader) 0

def readers (schedule : List Request) : Nat := schedule.count .reader

def clones (schedule : List Request) : Nat := schedule.count .clone

/-- How often a schedule asks for the next item of one reader, of any reader at most. -/
def most (s : σ) (schedule : List Request) : Nat :=
  (Finset.range (readers schedule)).sup (calls s schedule)

/-- How often the source is asked. -/
noncomputable def polls (s : σ) (schedule : List Request) : ℕ∞ :=
  min (length s + 1) (most s schedule)

/-- The reply to a request after a schedule. -/
def Answers (s : σ) (before : List Request) : Request → Reply α → Prop
  | .reader, reply => reply = .number (readers before)
  | .clone, reply => reply = .number (clones before + 1)
  | .next reader, reply => reply = .item (item? s (calls s before reader))
  | .take reader count, reply =>
    reply = .items ((List.range' (calls s before reader) count).filterMap (item? s))
  | .inspect, reply => ∃ kept exhausted, reply = .status kept exhausted ∧
    (kept : ℕ∞) = min (length s) (most s before) ∧ (exhausted ↔ polls s before = length s + 1)

def after (schedule : List Request) (t : Session σ ε α) : Session σ ε α :=
  schedule.foldl (fun t request => (t.step request).2) t

/-- A session in which each reader has asked so many times. -/
structure Shares (s : σ) (calls : Nat → Nat) (t : Session σ ε α) : Prop where
  replay : t.replay.Holds s ((Finset.range t.positions.size).sup calls)
  positions : ∀ reader < t.positions.size, t.positions[reader]? = some (served s (calls reader))
  idle : ∀ reader ≥ t.positions.size, calls reader = 0
  notes : t.notes.toList = noted s (asked s ((Finset.range t.positions.size).sup calls))

variable {s : σ} {calls : Nat → Nat} {t : Session σ ε α}

theorem shares_ofSource (s : σ) : (ofSource s : Session σ ε α).Shares s fun _ => 0 :=
  ⟨Replay.holds_ofSource s, fun reader h => absurd h (Nat.not_lt_zero reader), fun _ _ => rfl, rfl⟩

/-- So many more calls of one reader, and as many as before of the others. -/
def called (calls : Nat → Nat) (reader count : Nat) : Nat → Nat :=
  fun other => calls other + if reader = other then count else 0

theorem called_zero (calls : Nat → Nat) (reader : Nat) : called calls reader 0 = calls := by
  funext other
  simp [called]

theorem called_called (calls : Nat → Nat) (reader m n : Nat) :
    called (called calls reader m) reader n = called calls reader (m + n) := by
  funext other
  by_cases h : reader = other
  · simp [called, h, Nat.add_assoc]
  · simp [called, h]

theorem callsAfter_next (s : σ) (calls : Nat → Nat) (reader : Nat) :
    (fun other => Request.callsAfter s other (calls other) (.next reader)) =
      called calls reader 1 := by
  funext other
  by_cases h : reader = other
  · simp [called, Request.callsAfter, h]
  · simp [called, Request.callsAfter, h]

theorem callsAfter_take (s : σ) (calls : Nat → Nat) (reader count : Nat) :
    (fun other => Request.callsAfter s other (calls other) (.take reader count)) =
      called calls reader (calledFor s (calls reader) count) := by
  funext other
  by_cases h : reader = other
  · simp [called, Request.callsAfter, h]
  · simp [called, Request.callsAfter, h]

theorem sup_called (calls : Nat → Nat) {reader readers : Nat} (h : reader < readers) :
    (Finset.range readers).sup (called calls reader 1) =
      max ((Finset.range readers).sup calls) (calls reader + 1) := by
  apply le_antisymm
  · refine Finset.sup_le fun other hother => ?_
    have hle := Finset.le_sup (f := calls) hother
    by_cases he : reader = other
    · subst he
      simp [called]
    · simp [called, he, hle]
  · refine max_le (Finset.sup_mono_fun fun other _ => Nat.le_add_right _ _) ?_
    have hle := Finset.le_sup (f := called calls reader 1) (Finset.mem_range.mpr h)
    simpa [called] using hle

theorem size_positions_next (reader : Nat) (t : Session σ ε α) :
    (t.next reader).2.positions.size = t.positions.size := by
  simp [Session.next]

theorem Shares.next (h : t.Shares s calls) {reader : Nat} (hr : reader < t.positions.size) :
    (t.next reader).1 = item? s (calls reader) ∧
      (t.next reader).2.Shares s (called calls reader 1) := by
  have hle : calls reader ≤ (Finset.range t.positions.size).sup calls :=
    Finset.le_sup (f := calls) (Finset.mem_range.mpr hr)
  obtain ⟨hitem, hposition, hholds, hnotes⟩ := h.replay.ask hle
  have hsize := size_positions_next reader t
  have hmost := sup_called calls hr
  have hat : t.positions[reader] = served s (calls reader) :=
    (Array.getElem?_eq_some_iff.mp (h.positions reader hr)).2
  refine ⟨?_, ?_, ?_, ?_, ?_⟩
  · simpa [Session.next, Replay.Reader.pull, hr, hat] using hitem
  · rw [hsize, hmost]
    simpa [Session.next, Replay.Reader.pull, hr, hat] using hholds
  · intro other ho
    rw [hsize] at ho
    by_cases he : reader = other
    · subst he
      simpa [Session.next, Replay.Reader.pull, hr, hat, called] using hposition
    · simpa [Session.next, called, he] using h.positions other ho
  · intro other ho
    rw [hsize] at ho
    have hne : reader ≠ other := by omega
    simpa [called, hne] using h.idle other ho
  · rw [hsize, hmost, hnotes, ← h.notes]
    simp [Session.next, Replay.Reader.pull, hr, hat]

/-- To take items is to ask until there are enough or there is a `none`. -/
theorem Shares.take (h : t.Shares s calls) {reader : Nat} (hr : reader < t.positions.size)
    (count : Nat) :
    let taken := Session.take reader count t
    taken.1 = (List.range' (calls reader) count).filterMap (item? s) ∧
      taken.2.Shares s (called calls reader (calledFor s (calls reader) count)) := by
  induction count generalizing calls t with
  | zero =>
    have hzero : calledFor s (calls reader) 0 = 0 := Nat.zero_min _
    rw [hzero, called_zero]
    exact ⟨rfl, h⟩
  | succ count ih =>
    have hsize := size_positions_next reader t
    obtain ⟨hitem, hshares⟩ := h.next hr
    rw [Session.take]
    rcases hn : t.next reader with ⟨item, t'⟩
    rw [hn] at hitem hshares hsize
    dsimp only at hitem hshares hsize ⊢
    cases item with
    | none =>
      rw [calledFor_of_none hitem.symm]
      refine ⟨?_, hshares⟩
      refine (List.filterMap_eq_nil_iff.mpr fun k hk => ?_).symm
      exact item?_eq_none_of_le hitem.symm (List.mem_range'_1.mp hk).1
    | some a =>
      obtain ⟨hitems, hshares'⟩ := ih hshares (hsize.symm ▸ hr)
      have hcalls : called calls reader 1 reader = calls reader + 1 := by simp [called]
      rw [hcalls] at hitems hshares'
      rw [calledFor_of_some hitem.symm, ← called_called]
      refine ⟨?_, hshares'⟩
      rw [List.range'_succ, List.filterMap_cons_some hitem.symm, ← hitems]

theorem Shares.start (h : t.Shares s calls) :
    ({ t with positions := t.positions.push 0 } : Session σ ε α).Shares s calls := by
  have hidle : calls t.positions.size = 0 := h.idle _ (Nat.le_refl _)
  have hmost : (Finset.range (t.positions.push 0).size).sup calls =
      (Finset.range t.positions.size).sup calls := by
    rw [Array.size_push, Finset.range_add_one, Finset.sup_insert, hidle]
    exact bot_sup_eq _
  refine ⟨hmost ▸ h.replay, ?_, ?_, hmost ▸ h.notes⟩
  · intro reader hr
    rw [Array.size_push] at hr
    by_cases he : reader = t.positions.size
    · subst he
      rw [Array.getElem?_push_size, hidle]
      rfl
    · rw [Array.getElem?_push, if_neg he]
      exact h.positions reader (by omega)
  · intro reader hr
    rw [Array.size_push] at hr
    exact h.idle reader (by omega)

/-- A session after a schedule. -/
structure Reached (s : σ) (before : List Request) (t : Session σ ε α) : Prop where
  shares : t.Shares s (Session.calls s before)
  started : t.positions.size = readers before
  cloned : t.handles = clones before + 1

variable {before rest : List Request} {request : Request}

theorem calls_concat (s : σ) (before : List Request) (request : Request) :
    Session.calls s (before ++ [request]) =
      fun reader => request.callsAfter s reader (Session.calls s before reader) := by
  funext reader
  rw [Session.calls, List.foldl_append, Session.calls]
  rfl

theorem after_concat (before : List Request) (request : Request) (t : Session σ ε α) :
    after (before ++ [request]) t = ((after before t).step request).2 := by
  rw [after, List.foldl_append, after]
  rfl

theorem take_induction {motive : Session σ ε α → Prop} {reader : Nat}
    (hnext : ∀ t, motive t → motive (t.next reader).2) (count : Nat) (ht : motive t) :
    motive (Session.take reader count t).2 := by
  induction count generalizing t with
  | zero => exact ht
  | succ count ih =>
    have ht' := hnext t ht
    rw [Session.take]
    rcases hn : t.next reader with ⟨item, t'⟩
    rw [hn] at ht'
    cases item with
    | none => exact ht'
    | some a => exact ih ht'

theorem size_positions_step (t : Session σ ε α) (request : Request) :
    (t.step request).2.positions.size = t.positions.size + [request].count .reader := by
  cases request with
  | reader => exact Array.size_push _
  | clone => rfl
  | inspect => rfl
  | next reader => exact size_positions_next reader t
  | take reader count =>
    exact take_induction (fun u hu => (size_positions_next reader u).trans hu) count rfl

theorem handles_step (t : Session σ ε α) (request : Request) :
    (t.step request).2.handles = t.handles + [request].count .clone := by
  cases request with
  | reader => rfl
  | clone => rfl
  | inspect => rfl
  | next reader => rfl
  | take reader count =>
    exact take_induction (motive := fun u => u.handles = t.handles) (fun u hu => hu) count rfl

theorem Request.validFrom_tail {readers : Nat} (hvalid : validFrom readers (request :: rest)) :
    validFrom (readers + [request].count .reader) rest := by
  cases request with
  | reader => exact hvalid
  | clone => exact hvalid
  | inspect => exact hvalid
  | next reader =>
    simp only [validFrom, Bool.and_eq_true] at hvalid
    exact hvalid.2
  | take reader count =>
    simp only [validFrom, Bool.and_eq_true] at hvalid
    exact hvalid.2

/-- One request after a schedule: the reply, and what the readers share then. -/
theorem Shares.step (h : t.Reached s before)
    (hvalid : Request.validFrom (readers before) (request :: rest)) :
    Answers s before request (t.step request).1 ∧
      (t.step request).2.Shares s (Session.calls s (before ++ [request])) := by
  rw [calls_concat]
  cases request with
  | reader => exact ⟨congrArg Reply.number h.started, h.shares.start⟩
  | clone =>
    exact ⟨congrArg Reply.number h.cloned,
      ⟨h.shares.replay, h.shares.positions, h.shares.idle, h.shares.notes⟩⟩
  | inspect =>
    have hmost : (Finset.range t.positions.size).sup (Session.calls s before) = most s before := by
      rw [h.started, most]
    have hkept : (t.replay.items.size : ℕ∞) = min (length s) (most s before) := by
      rw [h.shares.replay.size, hmost]
      exact served_eq_min s _
    have hexhausted : t.replay.isExhausted ↔ polls s before = length s + 1 := by
      rw [polls, ← asked_eq_min, ← hmost]
      exact h.shares.replay.isExhausted_iff.trans (asked_eq_length_iff s _).symm
    exact ⟨⟨_, _, rfl, hkept, hexhausted⟩, h.shares⟩
  | next reader =>
    simp only [Request.validFrom, Bool.and_eq_true, decide_eq_true_eq] at hvalid
    obtain ⟨hitem, hshares⟩ := h.shares.next (h.started.symm ▸ hvalid.1)
    rw [callsAfter_next]
    exact ⟨congrArg Reply.item hitem, hshares⟩
  | take reader count =>
    simp only [Request.validFrom, Bool.and_eq_true, decide_eq_true_eq] at hvalid
    obtain ⟨hitems, hshares⟩ := h.shares.take (h.started.symm ▸ hvalid.1) count
    rw [callsAfter_take]
    exact ⟨congrArg Reply.items hitems, hshares⟩

theorem Reached.step (h : t.Reached s before)
    (hvalid : Request.validFrom (readers before) (request :: rest)) :
    (t.step request).2.Reached s (before ++ [request]) where
  shares := (Shares.step h hvalid).2
  started := by rw [size_positions_step, h.started, readers, readers, List.count_append]
  cloned := by
    rw [handles_step, h.cloned, clones, clones, List.count_append]
    omega

theorem reached_after (s : σ) (hvalid : Request.validFrom 0 (before ++ rest)) :
    (after before (ofSource s)).Reached s before ∧ Request.validFrom (readers before) rest := by
  induction before using List.reverseRecOn generalizing rest with
  | nil => exact ⟨⟨shares_ofSource s, rfl, rfl⟩, hvalid⟩
  | append_singleton before request ih =>
    rw [List.append_assoc] at hvalid
    obtain ⟨hreached, hrest⟩ := ih hvalid
    have hreaders : readers (before ++ [request]) = readers before + [request].count .reader := by
      rw [readers, readers, List.count_append]
    rw [after_concat, hreaders]
    exact ⟨hreached.step hrest, Request.validFrom_tail hrest⟩

theorem length_run (schedule : List Request) (t : Session σ ε α) :
    (run schedule t).length = schedule.length := by
  induction schedule generalizing t with
  | nil => rfl
  | cons request schedule ih => exact congrArg (· + 1) (ih _)

theorem getElem?_run (before : List Request) (request : Request) (rest : List Request)
    (t : Session σ ε α) :
    (run (before ++ request :: rest) t)[before.length]? =
      some (((after before t).step request).1, (after (before ++ [request]) t).notes.size) := by
  induction before generalizing t with
  | nil => rfl
  | cons first before ih => exact ih _

/-- Whatever the source and the order of the requests, every request is answered. A reader gets the
items before the first `none`, from the first on, and then only `none`. The source has been asked as
often as the reader furthest ahead has been, but not after its first `none`; all that it gave is
kept, and it has been let go if that `none` has come. -/
theorem replay_shared (s : σ) {schedule : List Request} (hvalid : Request.validFrom 0 schedule) :
    (run schedule (ofSource s)).length = schedule.length ∧
    ∀ before request rest, schedule = before ++ request :: rest →
      let done := before ++ [request]
      let t : Session σ ε α := after done (ofSource s)
      ∃ reply, (run schedule (ofSource s))[before.length]? = some (reply, t.notes.size) ∧
        Answers s before request reply ∧
        ∃ polled : Nat, (polled : ℕ∞) = polls s done ∧
          t.notes.toList = (pulls polled s).flatMap Prod.fst ∧
          ((∀ u : σ, (pull u).notes.length = 1) → t.notes.size = polled) ∧
          t.replay.source =
            if (polled : ℕ∞) = length s + 1 then none else some (Source.after polled s) := by
  refine ⟨length_run schedule _, ?_⟩
  rintro before request rest rfl done t
  obtain ⟨hbefore, hrest⟩ := reached_after s hvalid
  obtain ⟨hreply, _⟩ := Shares.step hbefore hrest
  have hreached := hbefore.step hrest
  rw [← after_concat] at hreached
  have hmost : (Finset.range t.positions.size).sup (Session.calls s done) = most s done := by
    rw [hreached.started, most]
  have hnotes : t.notes.toList = noted s (asked s (most s done)) := hmost ▸ hreached.shares.notes
  have hholds : t.replay.Holds s (most s done) := hmost ▸ hreached.shares.replay
  refine ⟨_, getElem?_run before request rest _, hreply, asked s (most s done), asked_eq_min s _,
    hnotes, ?_, ?_⟩
  · intro hone
    rw [← Array.length_toList, hnotes, length_noted hone]
  · rw [hholds.source]
    have hle := served_le s (most s done)
    have hiff := asked_eq_length_iff s (most s done)
    by_cases hself : served s (most s done) = most s done
    · have hasked : asked s (most s done) = most s done := by
        rw [asked, hself]
        omega
      rw [if_pos hself, if_neg (mt hiff.mp (by omega)), hasked]
    · rw [if_neg hself, if_pos (hiff.mpr (by omega))]

/-- Two readers of a source that goes on after a `none`: neither sees what comes after it. -/
theorem replay_shared_gap :
    let tape : Tape Nat := ⟨[some 7, none, some 8]⟩
    let schedule : List Request :=
      [.reader, .next 0, .clone, .reader, .next 1, .next 1, .next 1, .inspect]
    let replies := run schedule (ofSource tape)
    Request.validFrom 0 schedule ∧ replies[4]?.map Prod.fst = some (.item (some 7)) ∧
      replies[6]?.map Prod.fst = some (.item none) ∧ replies[7]? = some (.status 1 true, 2) := by
  intro tape schedule replies
  have hvalid : Request.validFrom 0 schedule := by decide
  have hlength : length tape = 1 := by
    have hserved : served tape 2 = 1 := by decide +kernel
    rw [length_eq_served (n := 2) (by omega), hserved]
    rfl
  have hone : ∀ u : Tape Nat, (pull u).notes.length = 1 := fun u => by
    obtain ⟨_ | ⟨answer, script⟩⟩ := u <;> rfl
  obtain ⟨_, hreplies⟩ := replay_shared tape hvalid
  refine ⟨hvalid, ?_, ?_, ?_⟩
  · obtain ⟨reply, hreply, hanswers, _⟩ := hreplies (schedule.take 4) (.next 1) _ rfl
    have hitem : item? tape (Session.calls tape (schedule.take 4) 1) = some 7 := by decide +kernel
    rw [Answers, hitem] at hanswers
    exact (congrArg (Option.map Prod.fst) hreply).trans (congrArg some hanswers)
  · obtain ⟨reply, hreply, hanswers, _⟩ := hreplies (schedule.take 6) (.next 1) _ rfl
    have hitem : item? tape (Session.calls tape (schedule.take 6) 1) = none := by decide +kernel
    rw [Answers, hitem] at hanswers
    exact (congrArg (Option.map Prod.fst) hreply).trans (congrArg some hanswers)
  · obtain ⟨reply, hreply, hanswers, polled, hpolled, _, hnotes, _⟩ :=
      hreplies (schedule.take 7) .inspect [] rfl
    obtain ⟨kept, exhausted, rfl, hkept, hexhausted⟩ := hanswers
    have hmost : most tape (schedule.take 7) = 3 := by decide +kernel
    have hmost' : most tape schedule = 3 := by decide +kernel
    have htwo : min (length tape + 1) ((3 : Nat) : ℕ∞) = 2 := by
      rw [hlength]
      decide
    rw [hmost, hlength] at hkept
    rw [polls, hmost, htwo, hlength] at hexhausted
    have hpolls : (polled : ℕ∞) = 2 := by
      refine hpolled.trans ?_
      rw [polls]
      exact hmost' ▸ htwo
    obtain rfl : kept = 1 := by
      have : (kept : ℕ∞) = (1 : Nat) := hkept
      exact_mod_cast this
    obtain rfl : exhausted = true := hexhausted.mpr rfl
    obtain rfl : polled = 2 := by exact_mod_cast hpolls
    rw [← hnotes hone]
    exact hreply

end Session

end TreeQuery
