import TreeQuery.Proofs.Captures
import TreeQuery.Proofs.FirstOccurrences
import TreeQuery.Proofs.Pairing

/-! Queries that capture nothing. If acceptance does not look at the bindings either, what they find
depends on the place of a state alone, and the bindings are handed on as they are. -/

namespace TreeQuery

namespace Query

theorem anyCaptures_eq_any (qs : List Query) : anyCaptures qs = qs.any hasCaptures := by
  induction qs with
  | nil => rfl
  | cons q qs ih => rw [anyCaptures, ih, List.any_cons]

theorem anyCaptures_eq_false_iff {qs : List Query} :
    anyCaptures qs = false ↔ ∀ q ∈ qs, q.hasCaptures = false := by
  simp [anyCaptures_eq_any]

theorem captures_eq_nil {q : Query} (h : q.hasCaptures = false) : q.captures = [] := by
  induction q with
  | single f nested ih =>
    rw [hasCaptures, Bool.or_eq_false_iff] at h
    have hnone : f.capture = none := by simpa using h.1
    simp [captures, hnone, ih h.2]
  | container mode children ih =>
    rw [hasCaptures, anyCaptures_eq_false_iff] at h
    rw [captures, List.eq_nil_iff_forall_not_mem]
    intro name hname
    obtain ⟨q, hq, hname⟩ := mem_capturesOf.mp hname
    rw [ih q hq (h q hq)] at hname
    simp at hname

end Query

namespace State

variable {a b c d : State}

/-- The same scope and cursor, whatever is bound. -/
def SamePlace (a b : State) : Prop := a.root = b.root ∧ a.cursor = b.cursor

theorem SamePlace.enter (t : LinkedTree) (a b : State) (capture capture' : Option String)
    (id : Nat) : (a.enter t capture id).SamePlace (b.enter t capture' id) :=
  ⟨rfl, rfl⟩

theorem SamePlace.past (h : a.SamePlace b) (t : LinkedTree) (id : Nat) :
    (a.past t id).SamePlace (b.past t id) :=
  ⟨h.1, by rw [State.past, State.past, h.1]⟩

theorem SamePlace.align (h : a.SamePlace b) (t : LinkedTree) :
    (a.align t).SamePlace (b.align t) :=
  ⟨h.1, by simp only [State.align, aligned?, h.1, h.2]⟩

theorem SamePlace.startAt (h : a.SamePlace b) (h' : c.SamePlace d) :
    (a.startAt c).SamePlace (b.startAt d) :=
  ⟨h.1, h'.2⟩

theorem SamePlace.notBefore (h : a.SamePlace b) (h' : c.SamePlace d) (t : LinkedTree) :
    (a.notBefore t c).SamePlace (b.notBefore t d) := by
  rw [State.notBefore, State.notBefore, ← h.2, ← h'.2]
  split
  · split
    · exact h
    · exact ⟨h.1, rfl⟩
  · exact ⟨h.1, rfl⟩

end State

namespace Scene

/-- Acceptance does not look at the bindings. -/
def IgnoresBindings (scene : Scene) : Prop :=
  ∀ f n b c, scene.acceptance f n b = scene.acceptance f n c

variable {scene : Scene} {s s' r : State}

theorem bindings_of_mem_results {q : Query} (hq : q.hasCaptures = false)
    (hr : r ∈ scene.results q s) : r.bindings = s.bindings := by
  have hgrows := growsBy_of_mem_results q hr
  rw [Query.captures_eq_nil hq] at hgrows
  exact hgrows.eq_of_nil

/-- Below a candidate all nested results bind the same, so that the first of them stands for all. -/
theorem below_of_captureFree {f : Filter} {nested : Query} (hnested : nested.hasCaptures = false)
    (captures : Bool) (s : State) (id : Nat) :
    scene.below f captures (scene.results nested) s id =
      if (scene.results nested (s.enter scene.tree f.capture id)).isEmpty then []
      else [(s.past scene.tree id).withBindings
        (s.bindings.bind f.capture (scene.tree.node id))] := by
  have hbound : ∀ b ∈ (scene.results nested (s.enter scene.tree f.capture id)).map State.bindings,
      b = s.bindings.bind f.capture (scene.tree.node id) :=
    List.forall_mem_map.mpr fun r hr => bindings_of_mem_results hnested hr
  have hfirst := take_one_eq_eraseDups hbound
  have honly := eraseDups_of_forall_eq hbound
  rw [List.isEmpty_map] at honly
  rw [below, hfirst, ite_self, honly]
  split <;> rfl

theorem candidates_congr (h : s.SamePlace s') (f : Filter) :
    scene.candidates f s = scene.candidates f s' := by
  simp only [candidates, State.directChildren, State.aligned?, State.within, h.1, h.2]

theorem below_eq_nil_iff {f : Filter} {captures : Bool} {find : Find} {id : Nat} :
    scene.below f captures find s id = [] ↔ find (s.enter scene.tree f.capture id) = [] := by
  cases h : find (s.enter scene.tree f.capture id) with
  | nil => cases captures <;> simp [below, h]
  | cons r rest => cases captures <;> simp [below, h, List.eraseDups_cons]

theorem samePlace_of_mem_below {f : Filter} {captures : Bool} {find : Find} {id : Nat}
    (hr : r ∈ scene.below f captures find s id) : r.SamePlace (s.past scene.tree id) := by
  obtain ⟨x, _, rfl⟩ := exists_of_mem_below hr
  exact ⟨rfl, rfl⟩

/-- One result below a candidate differs from another by its bindings alone. -/
theorem paired_below {f f' : Filter} {captures captures' : Bool} {find find' : Find} {id : Nat}
    (h : s.SamePlace s') (hnil : find (s.enter scene.tree f.capture id) = [] ↔
      find' (s'.enter scene.tree f'.capture id) = []) :
    Paired State.SamePlace (scene.below f captures find s id)
      (scene.below f' captures' find' s' id) := by
  refine .of_forall (fun a ha b hb => ?_) (by rw [below_eq_nil_iff, below_eq_nil_iff, hnil])
  have ha := samePlace_of_mem_below ha
  have hb := samePlace_of_mem_below hb
  have hs := h.past scene.tree id
  exact ⟨ha.1.trans (hs.1.trans hb.1.symm), ha.2.trans (hs.2.trans hb.2.symm)⟩

theorem paired_covering {find find' : Find} (nextOnly : Bool) (h : s.SamePlace s')
    (hfind : Paired State.SamePlace (find s) (find' s')) :
    Paired State.SamePlace (scene.covering nextOnly find s)
      (scene.covering nextOnly find' s') := by
  have haligned : Paired State.SamePlace ((find s).map (·.align scene.tree))
      ((find' s').map (·.align scene.tree)) := hfind.map fun a b hab => hab.align scene.tree
  rw [covering, covering, h.2]
  split
  · split
    · exact haligned.filter fun a b hab => by rw [hab.2]
    · exact .nil
  · exact haligned

/-- Nothing that is found, nor where, depends on what is bound. -/
theorem paired_results_of_captureFree (hscene : scene.IgnoresBindings) {q : Query}
    (hq : q.hasCaptures = false) (h : s.SamePlace s') :
    Paired State.SamePlace (scene.results q s) (scene.results q s') := by
  induction q generalizing s s' with
  | single f nested ih =>
    rw [Query.hasCaptures, Bool.or_eq_false_iff] at hq
    have hnone : f.capture = none := by simpa using hq.1
    have haccepts (id : Nat) : scene.accepts f s id = scene.accepts f s' id := by
      simp only [accepts, hnone, Option.all_none, hscene f _ s.bindings s'.bindings]
    rw [results_single, results_single, candidates_congr h f]
    refine (Paired.refl (fun _ => rfl) _).flatMap ?_
    rintro id _ rfl
    rw [haccepts id]
    split
    · exact paired_below h (ih hq.2 (.enter ..)).eq_nil_iff
    · exact .nil
  | container mode children ih =>
    rw [Query.hasCaptures, Query.anyCaptures_eq_false_iff] at hq
    have hchild : ∀ q ∈ children, ∀ s s', s.SamePlace s' →
        Paired State.SamePlace (scene.results q s) (scene.results q s') :=
      fun q hmem s s' h => ih q hmem (hq q hmem) h
    have haccumulated : Paired State.SamePlace (accumulated (children.map scene.results) s)
        (accumulated (children.map scene.results) s') :=
      accumulated_paired hchild h fun r r' hr => hr.startAt h
    cases mode with
    | ordered =>
      rw [results_ordered, results_ordered]
      exact chain_paired hchild h
    | unordered =>
      rw [results_unordered, results_unordered]
      refine chain_paired (fun q hmem a b hab => ?_) h
      exact (hchild q hmem _ _ (hab.startAt h)).map fun c d hcd => hcd.notBefore hab scene.tree
    | any =>
      rw [results_any, results_any]
      split
      · exact .singleton h
      · exact haccumulated
    | optional =>
      rw [results_optional, results_optional]
      dsimp only
      rw [haccumulated.isEmpty_eq]
      split
      · exact .singleton h
      · exact haccumulated
    | exact =>
      have hstretch : ∀ part ∈ Query.stretches children, ∀ s s', s.SamePlace s' →
          Paired State.SamePlace (scene.stretch part s) (scene.stretch part s') :=
        fun part hpart a b hab => paired_covering _ hab
          (hchild part.1 (Query.mem_of_mem_stretches hpart) a b hab)
      have hchain := chain_paired hstretch h
      rw [results_exact, results_exact]
      dsimp only
      split
      · exact hchain.filter fun a b hab => by rw [hab.2]
      · exact hchain

end Scene

namespace Matcher

/-- No node of the subject is accepted or refused for what is bound. -/
def IgnoresBindings (m : Matcher) (sub : Subject) : Prop :=
  ∀ f n b c, m.kind.acceptance m.predicate sub f n b = m.kind.acceptance m.predicate sub f n c

theorem IgnoresBindings.scene {m : Matcher} {sub : Subject} (h : m.IgnoresBindings sub)
    (tree : LinkedTree) : (m.scene sub tree).IgnoresBindings := h

theorem plain_ignoresBindings (config : MatchConfig) (traced : Bool) (sub : Subject) :
    ({ config, traced } : Matcher).IgnoresBindings sub :=
  fun _ _ _ _ => rfl

end Matcher

end TreeQuery
