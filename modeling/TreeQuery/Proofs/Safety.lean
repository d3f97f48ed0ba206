import TreeQuery.Proofs.Flattening
import TreeQuery.Proofs.Pulls

/-! A search fails for one reason only, a target with more linked nodes than there are ids. However
often it is pulled, every pull comes to its end: it gives the next of the matches, as long as there
are any in the targets before such a one, and it has no fault unless it comes to build that target.
-/

namespace TreeQuery

namespace Cells

/-- A buffer that is fed from itself is found out, as soon as it is read past what it keeps. -/
theorem pull_fed_from_itself {scene : Scene} {h : Heap} {b position other fuel : Nat}
    {items : Array State} (hposition : items.size ≤ position)
    (hb : h.buffers[b]? = some ⟨⟨some (.reader b other), items⟩, false⟩) :
    pull scene (fuel + 2) (.reader b position) h = .failed .bufferHeld := by
  have hitem : items[position]? = none := Array.getElem?_eq_none hposition
  have hheld : (h.setBuffer b ⟨⟨some (.reader b other), items⟩, true⟩).buffers[b]? =
      some ⟨⟨some (.reader b other), items⟩, true⟩ := by
    rw [Heap.getElem?_setBuffer, if_pos rfl, hb, Option.map_some]
  have hagain : pull scene (fuel + 1) (.reader b other)
      (h.setBuffer b ⟨⟨some (.reader b other), items⟩, true⟩) = .failed .bufferHeld := by
    simp only [pull, hheld, if_true]
  rw [pull]
  simp only [hb, hitem, Bool.false_eq_true, if_false, hagain, Outcome.bind]

theorem Keeps.empty (scene : Scene) (log : List Event) : Keeps scene {} { log } where
  size_buffers := rfl
  size_tables := rfl
  buffer := by
    intro b buffer p hb
    simp at hb
  table := by
    intro t table q ht
    simp at ht

theorem Free.empty (w : World) (log : List Event) (b : Nat) : Free w { log } b where
  buffer := by
    intro c p _ _
    simp [Heap.bufferHeld]
  table := by
    intro t
    simp [Heap.tableHeld]

end Cells

namespace Matcher

open Cells

variable (m : Matcher) (q : Query) (s : Subject)

/-- Whether a target can be laid out. -/
def fits (node : Nat) : Bool :=
  match s.tree? node with
  | none => true
  | some t => (LinkedTree.build? t).isSome

/-- What is found in these targets. -/
def foundIn (nodes : List Nat) : List Bindings :=
  (nodes.filterMap s.tree?).flatMap fun t =>
    ((m.scene s (.ofTree t)).results q (.initial (.ofTree t))).map State.bindings

/-- The matches in these targets. -/
def matchesIn (nodes : List Nat) : List Bindings := (m.foundIn q s nodes).eraseDups

/-- The target being searched gives just these states. -/
def Gives (current : Option (LinkedTree × Stream × Heap)) (found : List State) : Prop :=
  match current with
  | none => found = []
  | some (tree, stream, heap) => ∃ t w b, tree = .ofTree t ∧ Keeps (m.scene s tree) w heap ∧
      Free w heap b ∧ Yields (m.scene s tree) w b stream found

/-- A run hands over just this list, without what it has handed over before, and then comes to its
end or, if `fit` is false, to a target that cannot be laid out. -/
def HandsOver (run : Run) (l : List Bindings) (fit : Bool) : Prop :=
  ∃ found, m.Gives s run.current found ∧
    l = ((found.map State.bindings ++ m.foundIn q s (run.waiting.takeWhile (fits s))).filter
      fun b => !run.seen.contains b).eraseDups ∧ fit = run.waiting.all (fits s)

/-- A pull gives the first of the list and leaves a run for the others, or it fails when there are
none and there is no end. -/
inductive Proceeds (run : Run) : List Bindings → Bool → Prop
  | answers {run' : Run} {l : List Bindings} {fit : Bool} (hany : l ≠ [] ∨ fit)
      (hpull : Eventually (fun fuel => m.pullRun q s fuel run) (.finished (l.head?, run')))
      (hrest : m.HandsOver q s run' l.tail fit) : Proceeds run l fit
  | fails (hpull : Eventually (fun fuel => m.pullRun q s fuel run) (.failed .tooMany)) :
    Proceeds run [] false

variable {m q s}

theorem Proceeds.of_pullRun {run run' : Run} {l : List Bindings} {fit : Bool}
    (h : m.Proceeds q s run' l fit)
    (hpull : ∀ o, Eventually (fun fuel => m.pullRun q s fuel run') o →
      Eventually (fun fuel => m.pullRun q s fuel run) o) : m.Proceeds q s run l fit := by
  cases h with
  | answers hany hpull' hrest => exact .answers hany (hpull _ hpull') hrest
  | fails hpull' => exact .fails (hpull _ hpull')

/-- The target being searched is gone through before those that wait. -/
theorem proceeds_current {t : Tree Nat} {w : World} {heap : Heap} {b : Nat} {stream : Stream}
    {found : List State} {waiting : List Nat} {seen : Std.HashSet Bindings} {log : List Event}
    (hwaiting : ∀ log l fit, m.HandsOver q s ⟨waiting, none, seen, log⟩ l fit →
      m.Proceeds q s ⟨waiting, none, seen, log⟩ l fit)
    (hkeeps : Keeps (m.scene s (.ofTree t)) w heap) (hfree : Free w heap b)
    (hyields : Yields (m.scene s (.ofTree t)) w b stream found) :
    m.Proceeds q s ⟨waiting, some (.ofTree t, stream, heap), seen, log⟩
      ((found.map State.bindings ++ m.foundIn q s (waiting.takeWhile (fits s))).filter
        fun b => !seen.contains b).eraseDups (waiting.all (fits s)) := by
  induction found generalizing w heap stream with
  | nil =>
    obtain ⟨w', rest, heap', hpull, _, _, _⟩ := served rfl b hkeeps hfree hyields
    refine (hwaiting heap'.log _ _ ⟨[], rfl, rfl, rfl⟩).of_pullRun fun o ho => .succ ?_
    exact hpull.bind ho
  | cons r found ih =>
    obtain ⟨w', rest, heap', hpull, hevolves, hkeeps', hrest⟩ := served rfl b hkeeps hfree hyields
    let noted := heap'.noteIf m.traced (foundEvent s r.bindings)
    have hnoted : Evolves w heap w' noted := hevolves.trans (.noteIf _ _)
    rw [List.map_cons, List.cons_append]
    cases hseen : seen.contains r.bindings with
    | true =>
      rw [List.filter_cons_of_neg (by simp [hseen])]
      refine (ih hkeeps' (hfree.evolve hkeeps hevolves) hrest).of_pullRun fun o ho =>
        .succ (hpull.bind ?_)
      simp only [List.head?_cons, hseen, if_true]
      exact ho
    | false =>
      have hnext : Eventually (fun fuel => m.pullRun q s fuel
            ⟨waiting, some (.ofTree t, stream, heap), seen, log⟩)
          (.finished (some r.bindings,
            ⟨waiting, some (.ofTree t, rest, noted), seen.insert r.bindings, log⟩)) := by
        refine .succ (hpull.bind ?_)
        simp only [List.head?_cons, hseen, Bool.false_eq_true, if_false]
        exact .const _
      rw [Search.eraseDups_filter_cons hseen]
      exact .answers (.inl (List.cons_ne_nil _ _)) hnext
        ⟨found, ⟨t, w', b, rfl, hkeeps'.noteIf _ _, hfree.evolve hkeeps hnoted, hrest⟩, rfl, rfl⟩

theorem proceeds_waiting (waiting : List Nat) (seen : Std.HashSet Bindings) (log : List Event)
    {l : List Bindings} {fit : Bool} (hl : m.HandsOver q s ⟨waiting, none, seen, log⟩ l fit) :
    m.Proceeds q s ⟨waiting, none, seen, log⟩ l fit := by
  obtain ⟨found, hfound, rfl, rfl⟩ := hl
  obtain rfl : found = [] := hfound
  induction waiting generalizing seen log with
  | nil => exact .answers (.inr rfl) (.succ (.const _)) ⟨[], rfl, rfl, rfl⟩
  | cons node waiting ih =>
    cases htree : s.tree? node with
    | none =>
      have hfits : fits s node = true := by rw [fits, htree]
      have hskip : m.foundIn q s ((node :: waiting).takeWhile (fits s)) =
          m.foundIn q s (waiting.takeWhile (fits s)) := by
        rw [List.takeWhile_cons_of_pos hfits, foundIn, List.filterMap_cons_none htree, foundIn]
      rw [hskip, List.all_cons, hfits, Bool.true_and]
      refine (ih seen log).of_pullRun fun o ho => .succ ?_
      simp only [pullRun, htree]
      exact ho
    | some t =>
      cases hbuild : LinkedTree.build? t with
      | none =>
        have hfits : fits s node = false := by simp only [fits, htree, hbuild, Option.isSome_none]
        rw [List.takeWhile_cons_of_neg (by simp [hfits]), List.all_cons, hfits, Bool.false_and]
        refine .fails (.succ ?_)
        simp only [pullRun, htree, hbuild]
        exact .const _
      | some tree =>
        have hfits : fits s node = true := by simp only [fits, htree, hbuild, Option.isSome_some]
        obtain rfl : tree = .ofTree t := LinkedTree.eq_of_build?_eq_some hbuild
        have hnode : m.foundIn q s ((node :: waiting).takeWhile (fits s)) =
            ((m.scene s (.ofTree t)).results q (.initial (.ofTree t))).map State.bindings ++
              m.foundIn q s (waiting.takeWhile (fits s)) := by
          rw [List.takeWhile_cons_of_pos hfits, foundIn, List.filterMap_cons_some htree,
            List.flatMap_cons, foundIn]
        have hstart : (State.initial (.ofTree t)).Placed (m.scene s (.ofTree t)).tree :=
          State.placed_initial
        obtain ⟨w, hevolves, hkeeps, hyields⟩ := built rfl hstart (.empty _ log) q
        have hfree :=
          (Free.empty {} log q.rank).evolve (.empty (m.scene s (.ofTree t)) log) hevolves
        have hothers : ∀ log l fit, m.HandsOver q s ⟨waiting, none, seen, log⟩ l fit →
            m.Proceeds q s ⟨waiting, none, seen, log⟩ l fit := by
          intro log l fit hl
          obtain ⟨found, rfl, rfl, rfl⟩ := hl
          exact ih seen log
        have hcurrent : m.Proceeds q s ⟨waiting, some (.ofTree t, _, _), seen, log⟩ _ _ :=
          proceeds_current hothers hkeeps hfree hyields
        rw [hnode, List.map_nil, List.nil_append, List.all_cons, hfits, Bool.true_and]
        refine hcurrent.of_pullRun fun o ho => .succ ?_
        simp only [pullRun, htree, hbuild, evaluate_of_placed rfl hstart, Outcome.bind]
        exact ho

theorem HandsOver.proceeds {run : Run} {l : List Bindings} {fit : Bool}
    (hl : m.HandsOver q s run l fit) : m.Proceeds q s run l fit := by
  obtain ⟨waiting, current, seen, log⟩ := run
  cases current with
  | none => exact proceeds_waiting waiting seen log hl
  | some target =>
    obtain ⟨tree, stream, heap⟩ := target
    obtain ⟨found, ⟨t, w, b, rfl, hkeeps, hfree, hyields⟩, rfl, rfl⟩ := hl
    exact proceeds_current (fun log _ _ => proceeds_waiting waiting seen log) hkeeps hfree hyields

/-- What comes of so many pulls when there are these matches to hand over. -/
def answers (l : List Bindings) (fit : Bool) (count : Nat) : Outcome (List (Option Bindings)) :=
  if fit || count ≤ l.length then
    .finished ((l.map some ++ List.replicate count none).take count)
  else .failed .tooMany

theorem answers_succ {l : List Bindings} {fit : Bool} (hany : l ≠ [] ∨ fit) (count : Nat) :
    answers l fit (count + 1) =
      (answers l.tail fit count).bind fun items => .finished (l.head? :: items) := by
  cases l with
  | nil =>
    obtain rfl : fit = true := by simpa using hany
    simp [answers, Outcome.bind, List.replicate_succ]
  | cons a l =>
    have hmin : min (count - l.length) (count + 1) = min (count - l.length) count := by omega
    by_cases hfit : fit || count ≤ l.length
    · have hfit' : fit || count + 1 ≤ (a :: l).length := by simpa using hfit
      rw [List.tail_cons, answers, answers, if_pos hfit, if_pos hfit']
      simp [Outcome.bind, List.take_append, List.take_replicate, hmin]
    · have hfit' : ¬ (fit || count + 1 ≤ (a :: l).length) := by simpa using hfit
      rw [List.tail_cons, answers, answers, if_neg hfit, if_neg hfit']
      rfl

theorem HandsOver.pulls {run : Run} {l : List Bindings} {fit : Bool}
    (hl : m.HandsOver q s run l fit) (count : Nat) :
    Eventually (fun fuel => m.pullsRun q s fuel count run) (answers l fit count) := by
  induction count generalizing run l with
  | zero =>
    have hnone : answers l fit 0 = .finished [] := by simp [answers]
    rw [hnone]
    exact .const _
  | succ count ih =>
    cases hl.proceeds with
    | answers hany hpull hrest =>
      rw [answers_succ hany]
      exact hpull.bind ((ih hrest).map _)
    | fails hpull =>
      have hfails : answers [] false (count + 1) = .failed .tooMany := by simp [answers]
      rw [hfails]
      exact hpull.failed_bind _

theorem handsOver_startRun (m : Matcher) (q : Query) (s : Subject) :
    m.HandsOver q s (startRun s) (m.matchesIn q s ((s.targets 0).takeWhile (fits s)))
      ((s.targets 0).all (fits s)) := by
  refine ⟨[], rfl, ?_, rfl⟩
  rw [matchesIn]
  congr 1
  exact (List.filter_eq_self.mpr fun _ _ => by simp [startRun]).symm

theorem matchesIn_targets (m : Matcher) (q : Query) (s : Subject) :
    m.matchesIn q s (s.targets 0) = (m.search q s).items := by
  rw [items_search, matchesIn, foundIn]

theorem matchesIn_append (m : Matcher) (q : Query) (s : Subject) (nodes more : List Nat) :
    m.matchesIn q s nodes <+: m.matchesIn q s (nodes ++ more) := by
  rw [matchesIn, matchesIn, foundIn, foundIn, List.filterMap_append, List.flatMap_append,
    List.eraseDups_append]
  exact List.prefix_append _ _

/-- However often a search is pulled, no pull goes on for ever. If every target can be laid out, the
pulls give the matches, and then nothing any more. If not, they give the matches in the targets
before the first that cannot, and it is the pull that comes to that one that fails. -/
theorem pullsRun_ends (m : Matcher) (q : Query) (s : Subject) (count : Nat) :
    ((s.targets 0).all (fits s) → ∃ enough, ∀ fuel, enough ≤ fuel →
      m.pullsRun q s fuel count (startRun s) =
        .finished (((m.search q s).items.map some ++ List.replicate count none).take count)) ∧
    (∀ before node after, s.targets 0 = before ++ node :: after → before.all (fits s) →
      fits s node = false → m.matchesIn q s before <+: (m.search q s).items ∧
      ∃ enough, ∀ fuel, enough ≤ fuel → m.pullsRun q s fuel count (startRun s) =
        if count ≤ (m.matchesIn q s before).length then
          .finished (((m.matchesIn q s before).map some).take count)
        else .failed .tooMany) := by
  have hpulls := (m.handsOver_startRun q s).pulls count
  constructor
  · intro hall
    have hfitting : (s.targets 0).takeWhile (fits s) = s.targets 0 := by
      have happend :
          (s.targets 0 ++ []).takeWhile (fits s) = s.targets 0 ++ [].takeWhile (fits s) :=
        List.takeWhile_append_of_pos (List.all_eq_true.mp hall)
      simpa using happend
    rw [hfitting, matchesIn_targets, hall, answers, Bool.true_or, if_pos rfl] at hpulls
    exact hpulls
  · intro before node after htargets hbefore hnode
    have hfitting : (s.targets 0).takeWhile (fits s) = before := by
      rw [htargets, List.takeWhile_append_of_pos (List.all_eq_true.mp hbefore),
        List.takeWhile_cons_of_neg (by simp [hnode]), List.append_nil]
    have hall : (s.targets 0).all (fits s) = false := by
      rw [htargets, List.all_append, List.all_cons, hnode, Bool.false_and, Bool.and_false]
    rw [hfitting, hall, answers, Bool.false_or] at hpulls
    refine ⟨?_, ?_⟩
    · rw [← matchesIn_targets, htargets]
      exact m.matchesIn_append q s before (node :: after)
    · obtain ⟨enough, henough⟩ := hpulls
      refine ⟨enough, fun fuel hfuel => (henough fuel hfuel).trans ?_⟩
      by_cases hcount : count ≤ (m.matchesIn q s before).length
      · rw [if_pos (decide_eq_true hcount), if_pos hcount,
          List.take_append_of_le_length (by simpa using hcount)]
      · rw [if_neg (by simpa using hcount), if_neg hcount]

theorem targets_doubled (n : Nat) : (Subject.ofTree (Tree.doubled n)).targets 0 = [0, 0] := by
  cases n <;> rfl

theorem fits_doubled : fits (.ofTree (Tree.doubled 32)) 0 = false := by
  have htree : (Subject.ofTree (Tree.doubled 32)).tree? 0 =
      some ((Tree.doubled 32).number 0).unfold := rfl
  have hbuild := mt (LinkedTree.isSome_build? ((Tree.doubled 32).number 0).unfold).mp
    (Nat.not_le_of_lt (Tree.capacity_lt_size_doubled 0))
  simpa only [fits, htree, Bool.not_eq_true] using hbuild

/-- The first pull fails if the first target has more linked nodes than there are ids. -/
theorem pullsRun_doubled :
    let s : Subject := .ofTree (Tree.doubled 32)
    let q : Query := .leaf { type := some "z" }
    (∃ enough, ∀ fuel, enough ≤ fuel →
      pullsRun {} q s fuel 1 (startRun s) = .failed .tooMany) ∧
    ¬ ∃ enough, ∀ fuel, enough ≤ fuel → ∃ answers,
      pullsRun {} q s fuel 1 (startRun s) = .finished answers := by
  intro s q
  have htargets : s.targets 0 = [0, 0] := targets_doubled 32
  have hfits : fits s 0 = false := fits_doubled
  have hpulls := (handsOver_startRun {} q s).pulls 1
  rw [htargets, List.takeWhile_cons_of_neg (by simp [hfits]), List.all_cons, hfits] at hpulls
  obtain ⟨enough, henough⟩ := hpulls
  have hfails : ∀ fuel, enough ≤ fuel → pullsRun {} q s fuel 1 (startRun s) = .failed .tooMany :=
    henough
  refine ⟨⟨enough, hfails⟩, ?_⟩
  rintro ⟨enough', hfinished⟩
  obtain ⟨answers, hanswers⟩ := hfinished (max enough enough') (Nat.le_max_right _ _)
  rw [hfails _ (Nat.le_max_left _ _)] at hanswers
  cases hanswers

end Matcher

end TreeQuery
