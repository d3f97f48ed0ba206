import TreeQuery.Proofs.Playing
import TreeQuery.Proofs.Safety

/-! A run over the targets notes and hands over, pull by pull, just what the search does. So what is
proved of the notes of searches holds of the cells. -/

namespace TreeQuery

namespace Matcher

open Cells
open Search (ofList after cons)

variable (m : Matcher) (q : Query) (s : Subject)

/-- What is still to be found, below the target being searched and below those that wait. -/
def toFind (below : States) (waiting : List Nat) (seen : Std.HashSet Bindings) :
    Search Event Bindings :=
  let found := (below.append fun _ => (ofList waiting).flatMap (m.searchBelow q s)).map
    State.bindings
  (found.distinctFrom seen).announce m.traced (foundEvent s)

variable {m q s}

section Fronts

variable (below : States) (waiting : List Nat) (seen : Std.HashSet Bindings)

theorem toFind_after (events : List Event) :
    m.toFind q s (after events below) waiting seen =
      after events (m.toFind q s below waiting seen) := by
  simp only [toFind, Search.after_append, Search.after_map, Search.after_distinctFrom,
    Search.after_announce]

theorem toFind_cons (r : State) :
    m.toFind q s (cons r below) waiting seen =
      if seen.contains r.bindings then m.toFind q s below waiting seen
      else after (if m.traced then [foundEvent s r.bindings] else [])
        (cons r.bindings (m.toFind q s below waiting (seen.insert r.bindings))) := by
  rw [toFind, Search.cons_append, Search.cons_map, Search.cons_distinctFrom]
  split
  · rfl
  · rw [Search.cons_announce]
    rfl

theorem toFind_next (node : Nat) :
    m.toFind q s .stop (node :: waiting) seen =
      m.toFind q s (m.searchBelow q s node) waiting seen := by
  rw [toFind, ofList, Search.append, Search.flatMap_yield]
  rfl

end Fronts

variable (m q s) in
/-- A run that is at this point of the search. -/
inductive Follows : Run → Search Event Bindings → Prop
  | between (waiting seen log) :
    Follows ⟨waiting, none, seen, log⟩ (m.toFind q s .stop waiting seen)
  | within {t P F stream heap below} (waiting seen log) (hF : F ⊆ heap.cells)
      (hplays : Plays (m.scene s (.ofTree t)) P heap F stream below) :
    Follows ⟨waiting, some (.ofTree t, stream, heap), seen, log⟩ (m.toFind q s below waiting seen)

variable (m q s) in
/-- A pull has given what a pull of the search gives. -/
structure Agrees (run : Run) (search : Search Event Bindings) (item : Option Bindings)
    (run' : Run) : Prop where
  item : item = search.pull.item
  noted : run'.noted = run.noted ++ search.pull.notes
  follows : m.Follows q s run' search.pull.rest

/-- A pull that goes on as another one does. -/
theorem Agrees.later {run run' run'' : Run} {search : Search Event Bindings}
    {item : Option Bindings} (hlater : m.Agrees q s run' search item run'') (events : List Event)
    (hnoted : run'.noted = run.noted ++ events) :
    m.Agrees q s run (after events search) item run'' := by
  obtain ⟨hitem, hnoted', hfollows⟩ := hlater
  rw [hnoted, List.append_assoc] at hnoted'
  refine ⟨?_, ?_, ?_⟩
  · rw [Search.pull_after, hitem]
  · rw [Search.pull_after, hnoted']
  · rw [Search.pull_after]
    exact hfollows

theorem agrees_found {run run' : Run} {search : Search Event Bindings} {b : Bindings}
    (events : List Event) (hnoted : run'.noted = run.noted ++ events)
    (hfollows : m.Follows q s run' search) :
    m.Agrees q s run (after events (cons b search)) (some b) run' := by
  refine ⟨?_, ?_, ?_⟩
  · rw [Search.pull_after_cons]
  · rw [Search.pull_after_cons, hnoted]
  · rw [Search.pull_after_cons]
    exact hfollows

/-- By induction on the fuel, which is less for all that a pull goes on with. -/
theorem Follows.agrees {run run' : Run} {search : Search Event Bindings} {item : Option Bindings}
    {fuel : Nat} (h : m.Follows q s run search)
    (hpull : m.pullRun q s fuel run = .finished (item, run')) :
    m.Agrees q s run search item run' := by
  induction fuel generalizing run search with
  | zero => cases hpull
  | succ fuel ih =>
    cases h with
    | between waiting seen log =>
      cases waiting with
      | nil =>
        obtain ⟨rfl, rfl⟩ := Prod.mk.inj (Outcome.finished.inj hpull)
        exact ⟨rfl, (List.append_nil _).symm, .between [] seen log⟩
      | cons node waiting =>
        rw [toFind_next, searchBelow]
        cases htree : s.tree? node with
        | none =>
          simp only [pullRun, htree] at hpull
          exact (ih (.between waiting seen log) hpull).later [] (List.append_nil _).symm
        | some t =>
          cases hbuild : LinkedTree.build? t with
          | none =>
            simp only [pullRun, htree, hbuild] at hpull
            cases hpull
          | some tree =>
            obtain rfl : tree = .ofTree t := LinkedTree.eq_of_build?_eq_some hbuild
            have hstart : (State.initial (.ofTree t)).Placed (m.scene s (.ofTree t)).tree :=
              State.placed_initial
            simp only [pullRun, htree, hbuild, evaluate_of_placed rfl hstart] at hpull
            obtain ⟨P, F, hchanges, hlog, hplays⟩ :=
              (made rfl hstart q : Made _ (fun _ => []) { log } _ _)
            exact (ih (.within waiting seen log hchanges.made hplays) hpull).later []
              (hlog.trans (List.append_nil _).symm)
    | within waiting seen log hF hplays =>
      obtain ⟨asked, hasked, hpull⟩ := Outcome.bind_eq_finished hpull
      obtain ⟨P', F', hcontinues⟩ := playsOn rfl fuel hplays hF hasked
      cases hcontinues with
      | @ended events _ heap _ _ hlog =>
        rw [toFind_after]
        exact (ih (.between waiting seen heap.log) hpull).later events hlog
      | @found events r below rest heap _ _ hlog hchanges hrest =>
        rw [toFind_after, toFind_cons]
        cases hseen : seen.contains r.bindings with
        | true =>
          simp only [hseen, if_true] at hpull
          exact (ih (.within waiting seen log hchanges.made hrest) hpull).later events hlog
        | false =>
          simp only [hseen, Bool.false_eq_true, if_false] at hpull ⊢
          obtain ⟨rfl, rfl⟩ := Prod.mk.inj (Outcome.finished.inj hpull)
          let noted := heap.noteIf m.traced (foundEvent s r.bindings)
          have hnoted : Changes P' heap ∅ P' noted ∅ := .noteIf _ _ (Set.empty_subset _)
          have hrest' := hrest.frame hnoted hchanges.made (Set.empty_disjoint _)
          have hlog' : noted.log = _ := heap.log_noteIf _ _
          rw [hlog, List.append_assoc] at hlog'
          rw [Search.after_after]
          exact agrees_found _ hlog'
            (.within waiting _ log (hchanges.made.trans hnoted.cells) hrest')

/-- Each pull gives what a pull of the search gives, with what is noted in it. -/
theorem Follows.notedPullsRun_eq {run : Run} {search : Search Event Bindings} {fuel count : Nat}
    {pulls : List (List Event × Option Bindings)} (h : m.Follows q s run search)
    (hpulls : m.notedPullsRun q s fuel count run = .finished pulls) :
    pulls = Source.pulls count search := by
  induction count generalizing run search pulls with
  | zero => exact (Outcome.finished.inj hpulls).symm
  | succ count ih =>
    obtain ⟨⟨item, run'⟩, hpull, hpulls⟩ := Outcome.bind_eq_finished hpulls
    obtain ⟨later, hlater, hpulls⟩ := Outcome.bind_eq_finished hpulls
    obtain rfl := Outcome.finished.inj hpulls
    obtain ⟨hitem, hnoted, hfollows⟩ := h.agrees hpull
    rw [ih hfollows hlater, hitem, hnoted, List.drop_left]
    rfl

theorem follows_startRun (m : Matcher) (q : Query) (s : Subject) :
    m.Follows q s (startRun s) (m.search q s) :=
  .between (s.targets 0) ∅ []

/-- The pulls are the same whether they are noted or not. -/
theorem pullsRun_eq_bind (fuel count : Nat) (run : Run) :
    m.pullsRun q s fuel count run =
      (m.notedPullsRun q s fuel count run).bind fun pulls => .finished (pulls.map Prod.snd) := by
  induction count generalizing run with
  | zero => rfl
  | succ count ih =>
    rw [pullsRun, notedPullsRun]
    cases m.pullRun q s fuel run with
    | finished asked =>
      simp only [Outcome.bind, ih]
      cases m.notedPullsRun q s fuel count asked.2 <;> rfl
    | failed fault => rfl
    | unfinished => rfl

/-- As far as pulls come to an end, they note and hand over what the search does; and if every
target can be laid out, they all do. -/
theorem notedPullsRun_startRun (m : Matcher) (q : Query) (s : Subject) (count : Nat) :
    (∀ fuel pulls, m.notedPullsRun q s fuel count (startRun s) = .finished pulls →
      pulls = Source.pulls count (m.search q s)) ∧
    ((s.targets 0).all (fits s) → ∃ enough, ∀ fuel, enough ≤ fuel →
      m.notedPullsRun q s fuel count (startRun s) =
        .finished (Source.pulls count (m.search q s))) := by
  have hagree (fuel) (pulls)
      (hpulls : m.notedPullsRun q s fuel count (startRun s) = .finished pulls) :
      pulls = Source.pulls count (m.search q s) :=
    (m.follows_startRun q s).notedPullsRun_eq hpulls
  refine ⟨hagree, fun hall => ?_⟩
  obtain ⟨enough, henough⟩ := (m.handsOver_startRun q s).pulls count
  rw [hall, answers, Bool.true_or, if_pos rfl] at henough
  refine ⟨enough, fun fuel hfuel => ?_⟩
  have hplain : m.pullsRun q s fuel count (startRun s) = _ := henough fuel hfuel
  rw [pullsRun_eq_bind] at hplain
  obtain ⟨pulls, hpulls, _⟩ := Outcome.bind_eq_finished hplain
  rw [hpulls, hagree fuel pulls hpulls]

end Matcher

end TreeQuery
