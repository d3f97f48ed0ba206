import TreeQuery.Proofs.ListEvaluation
import TreeQuery.Proofs.Places
import TreeQuery.Proofs.SearchLaws

/-! The first pull of an `any` container. It goes through a replay for each child, but it notes and
hands over what a first pull would on the runs of the children from the start, one after the other:
those that find nothing are gone through to their end, and behind the first that finds something
nothing is asked. -/

namespace TreeQuery

namespace Search

variable {ε α β : Type} {s s' : Search ε α}

theorem pull_of_items_eq_nil (h : s.items = []) : s.pull.item = none ∧ s.pull.notes = s.notes := by
  refine ⟨by rw [item_pull, h, List.head?_nil], ?_⟩
  induction s with
  | stop => rfl
  | note e rest ih => exact congrArg (e :: ·) (ih () h)
  | yield a rest => simp [items] at h

theorem item_pull_append (s : Search ε α) (after : Unit → Search ε α) :
    (s.append after).pull.item = s.pull.item.or (after ()).pull.item := by
  rw [item_pull, item_pull, item_pull, items_append, List.head?_append]

/-- The second search is asked only if the first finds nothing. -/
theorem notes_pull_append (s : Search ε α) (after : Unit → Search ε α) :
    (s.append after).pull.notes =
      s.pull.notes ++ if s.pull.item.isSome then [] else (after ()).pull.notes := by
  induction s with
  | stop => rfl
  | note e rest ih => exact congrArg (e :: ·) (ih ())
  | yield a rest => rfl

/-- A first pull notes and hands over the same. -/
structure SameFirstPull (s t : Search ε α) : Prop where
  notes : s.pull.notes = t.pull.notes
  item : s.pull.item = t.pull.item

namespace SameFirstPull

theorem refl (s : Search ε α) : SameFirstPull s s := ⟨rfl, rfl⟩

theorem trans {t u : Search ε α} (h : SameFirstPull s t) (h' : SameFirstPull t u) :
    SameFirstPull s u :=
  ⟨h.notes.trans h'.notes, h.item.trans h'.item⟩

theorem append_right (h : SameFirstPull s s') (after : Unit → Search ε α) :
    SameFirstPull (s.append after) (s'.append after) where
  notes := by rw [notes_pull_append, notes_pull_append, h.notes, h.item]
  item := by rw [item_pull_append, item_pull_append, h.item]

/-- The first item has not been seen before. -/
theorem distinct [BEq α] [LawfulBEq α] [Hashable α] (s : Search ε α) :
    SameFirstPull s.distinct s := by
  constructor
  · rw [Search.distinct]
    induction s with
    | stop => rfl
    | note e rest ih => exact congrArg (e :: ·) (ih ())
    | yield a rest => simp [distinctFrom, pull]
  · rw [item_pull, item_pull, items_distinct]
    cases s.items <;> simp [List.eraseDups_cons]

end SameFirstPull

theorem notes_pull_orElse (fallback : Option α) (s : Search ε α) :
    (s.orElse fallback).pull.notes = s.pull.notes := by
  induction s with
  | stop => cases fallback <;> rfl
  | note e rest ih => exact congrArg (e :: ·) (ih ())
  | yield a rest => rfl

theorem item_pull_orElse (fallback : Option α) (s : Search ε α) :
    (s.orElse fallback).pull.item = s.pull.item.or fallback := by
  induction s with
  | stop => cases fallback <;> rfl
  | note e rest ih => exact ih ()
  | yield a rest => rfl

/-- One search after the other. -/
def inTurn : List (Search ε α) → Search ε α
  | [] => stop
  | run :: runs => run.append fun _ => inTurn runs

/-- Searches that find nothing are gone through to their end. -/
theorem pull_inTurn_append {failing : List (Search ε α)} (h : ∀ run ∈ failing, run.items = [])
    (runs : List (Search ε α)) :
    (inTurn (failing ++ runs)).pull.item = (inTurn runs).pull.item ∧
      (inTurn (failing ++ runs)).pull.notes =
        failing.flatMap notes ++ (inTurn runs).pull.notes := by
  induction failing with
  | nil => exact ⟨rfl, rfl⟩
  | cons run failing ih =>
    obtain ⟨hrun, hfailing⟩ := List.forall_mem_cons.mp h
    obtain ⟨hitem, hnotes⟩ := pull_of_items_eq_nil hrun
    obtain ⟨ihitem, ihnotes⟩ := ih hfailing
    rw [List.cons_append, inTurn, item_pull_append, notes_pull_append, hitem, hnotes, ihitem,
      ihnotes,
      List.flatMap_cons, List.append_assoc]
    exact ⟨rfl, rfl⟩

end Search

namespace Scene

open Search

variable {s : State}

/-- With nothing found before there is one seed, the start. -/
theorem widen_sameFirstPull (s : State) (found : States) (run : State → States) :
    SameFirstPull (widen s found run) (found.append fun _ => run s) := by
  refine (SameFirstPull.distinct _).trans ?_
  cases h : found.items with
  | nil =>
    have hseed : ((ofList [s]).distinct : States) = once s := by
      simp [distinct, ofList, distinctFrom, once]
    rw [List.map_nil, hseed, once, flatMap_yield, flatMap, append_stop]
    exact .refl _
  | cons r rest =>
    have hitem : found.pull.item = some r := by
      rw [item_pull, h, List.head?_cons]
    constructor
    · rw [notes_pull_append, notes_pull_append, hitem, if_pos Option.isSome_some,
        if_pos Option.isSome_some]
    · rw [item_pull_append, item_pull_append, hitem, Option.some_or, Option.some_or]

theorem foldl_widen_sameFirstPull (s : State) (runs : List (State → States)) (found : States) :
    SameFirstPull (runs.foldl (widen s) found)
      (found.append fun _ => inTurn (runs.map fun run => run s)) := by
  induction runs generalizing found with
  | nil =>
    rw [List.map_nil, inTurn, append_stop]
    exact .refl found
  | cons run runs ih =>
    have hrest := (widen_sameFirstPull s found run).append_right fun _ =>
      inTurn (runs.map fun run => run s)
    rw [append_assoc] at hrest
    exact (ih _).trans hrest

/-- A first pull on an `any` container goes to its children in turn, each from the start. -/
theorem pull_evaluate_any (scene : Scene) {mode : Mode} (hmode : mode.requiresAll = false)
    {qs : List Query} (hqs : qs ≠ []) (s : State) :
    let pulled := (scene.evaluate (.container mode qs) s).pull
    let tried := (inTurn (qs.map fun q => scene.evaluate q s)).pull
    pulled.item = tried.item.or (if mode = .optional then some s else none) ∧
      pulled.notes = tried.notes := by
  intro pulled tried
  have hfound := foldl_widen_sameFirstPull s (qs.map scene.evaluate) .stop
  rw [List.map_map] at hfound
  have hpulled : pulled = (((qs.map scene.evaluate).foldl (widen s) .stop).orElse
      (if mode = .optional then some s else none)).pull :=
    congrArg pull (evaluate_any_eq scene hmode hqs s)
  rw [hpulled, item_pull_orElse, notes_pull_orElse, hfound.item, hfound.notes]
  exact ⟨rfl, rfl⟩

/-- The first pull of an `any` or `optional` container hands over the first result of the first
child that has one from the start. It notes what the children before that one note, each evaluated
once, from the start, to its end, and then what a first pull of that child notes. If no child has a
result all are evaluated in this way, and only an `optional` container hands over its start. -/
theorem evaluate_any_first_pull (scene : Scene) {mode : Mode}
    (hmode : mode = .any ∨ mode = .optional)
    {qs : List Query} (hqs : qs ≠ []) (s : State) :
    let pulled := (scene.evaluate (.container mode qs) s).pull
    (∀ j (hj : j < qs.length),
      (∀ q ∈ qs.take j, (scene.evaluate q s).items = []) →
      ∀ hfound : (scene.evaluate qs[j] s).items ≠ [],
        pulled.item = some ((scene.evaluate qs[j] s).items.head hfound) ∧
        pulled.notes = ((qs.take j).flatMap fun q => (scene.evaluate q s).notes) ++
          (scene.evaluate qs[j] s).pull.notes) ∧
    ((∀ q ∈ qs, (scene.evaluate q s).items = []) →
      pulled.item = (if mode = .optional then some s else none) ∧
      pulled.notes = qs.flatMap fun q => (scene.evaluate q s).notes) := by
  intro pulled
  have hrequires : mode.requiresAll = false := by
    rcases hmode with rfl | rfl
    · rfl
    · rfl
  obtain ⟨hitem, hnotes⟩ := pull_evaluate_any scene hrequires hqs s
  constructor
  · intro j hj hfailing hfound
    have hruns : qs.map (fun q => scene.evaluate q s) =
        (qs.take j).map (fun q => scene.evaluate q s) ++
          (qs.drop j).map fun q => scene.evaluate q s := by
      rw [← List.map_append, List.take_append_drop]
    obtain ⟨hturnItem, hturnNotes⟩ := pull_inTurn_append (List.forall_mem_map.mpr hfailing)
      ((qs.drop j).map fun q => scene.evaluate q s)
    have hfirst : (scene.evaluate qs[j] s).pull.item =
        some ((scene.evaluate qs[j] s).items.head hfound) := by
      rw [item_pull, List.head?_eq_some_head]
    rw [← hruns, List.drop_eq_getElem_cons hj, List.map_cons, inTurn, item_pull_append, hfirst,
      Option.some_or] at hturnItem
    rw [← hruns, List.drop_eq_getElem_cons hj, List.map_cons, inTurn, notes_pull_append, hfirst,
      if_pos Option.isSome_some, List.append_nil, List.flatMap_map] at hturnNotes
    exact ⟨by rw [hitem, hturnItem, Option.some_or], hnotes.trans hturnNotes⟩
  · intro hfailing
    obtain ⟨hturnItem, hturnNotes⟩ := pull_inTurn_append (List.forall_mem_map.mpr hfailing) []
    rw [List.append_nil] at hturnItem hturnNotes
    refine ⟨(hitem.trans (congrArg (Option.or · _) hturnItem)).trans ?_, hnotes.trans ?_⟩
    · simp [inTurn, pull]
    · rw [List.flatMap_map] at hturnNotes
      exact hturnNotes.trans (List.append_nil _)

/-- Both nodes are tested for the first child, one for the second, and none for the third. -/
theorem evaluate_any_first_pull_second_child :
    let n : Node := .addChildren (.ofType "root") [.ofType "a", .ofType "b"]
    let scene := ({ traced := true } : Matcher).scene (.ofNode n) (.ofTree n.places)
    let qs : List Query := [.leaf { type := some "c" }, .leaf { type := some "a" },
      .leaf { type := some "b", capture := some "B" }]
    let s := State.initial scene.tree
    let pulled := (scene.evaluate (.container .optional qs) s).pull
    (∀ q ∈ qs.take 1, (scene.evaluate q s).items = []) ∧ (scene.evaluate qs[1] s).items ≠ [] ∧
      pulled.item = some ⟨0, some 2, .empty⟩ ∧ pulled.notes.length = 3 := by
  intro n scene qs s pulled
  have hfailing : ∀ q ∈ qs.take 1, (scene.evaluate q s).items = [] := by
    decide +kernel
  have hfound : (scene.evaluate qs[1] s).items = [⟨0, some 2, .empty⟩] := by
    decide +kernel
  have hne : (scene.evaluate qs[1] s).items ≠ [] := by
    rw [hfound]
    exact List.cons_ne_nil _ _
  obtain ⟨hitem, hnotes⟩ := (evaluate_any_first_pull scene (.inr rfl) (List.cons_ne_nil _ _) s).1 1
    (by decide) hfailing hne
  have hhead : (scene.evaluate qs[1] s).items.head hne = ⟨0, some 2, .empty⟩ := by
    simp only [hfound, List.head_cons]
  refine ⟨hfailing, hne, hitem.trans (congrArg some hhead), ?_⟩
  rw [hnotes]
  decide +kernel

end Scene

end TreeQuery
