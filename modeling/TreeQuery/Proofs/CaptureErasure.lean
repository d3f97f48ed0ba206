import TreeQuery.Proofs.CaptureFree
import TreeQuery.Proofs.Places

/-! Queries with their captures erased. A capture can refuse a node only if its name is bound
before, so where each name is captured once and none is bound at the start, the query and its
erasure go through the same places: neither the filters of exact containers nor the fallback of
optional ones can tell them apart. -/

namespace TreeQuery

namespace Query

mutual

/-- The same query, binding nothing. -/
def eraseCaptures : Query → Query
  | single f nested => single { f with capture := none } nested.eraseCaptures
  | container mode children => container mode (eraseAllCaptures children)

def eraseAllCaptures : List Query → List Query
  | [] => []
  | q :: qs => q.eraseCaptures :: eraseAllCaptures qs

end

theorem eraseAllCaptures_eq_map (qs : List Query) :
    eraseAllCaptures qs = qs.map eraseCaptures := by
  induction qs with
  | nil => rfl
  | cons q qs ih => rw [eraseAllCaptures, ih, List.map_cons]

theorem hasCaptures_eraseCaptures (q : Query) : q.eraseCaptures.hasCaptures = false := by
  induction q with
  | single f nested ih => simp [eraseCaptures, hasCaptures, ih]
  | container mode children ih =>
    rw [eraseCaptures, hasCaptures, anyCaptures_eq_false_iff, eraseAllCaptures_eq_map]
    exact List.forall_mem_map.mpr ih

@[simp] theorem isSingle_eraseCaptures (q : Query) : q.eraseCaptures.isSingle = q.isSingle := by
  cases q <;> rfl

@[simp] theorem isPrimitive_eraseCaptures (q : Query) :
    q.eraseCaptures.isPrimitive = q.isPrimitive := by
  cases q <;> rfl

theorem stretches_map_eraseCaptures (qs : List Query) :
    stretches (qs.map eraseCaptures) =
      (stretches qs).map fun part => (part.1.eraseCaptures, part.2) := by
  have hclosed : (qs.map eraseCaptures).map isPrimitive = qs.map isPrimitive := by
    simp [Function.comp_def]
  rw [stretches, stretches, hclosed, List.zip_map_left]
  rfl

theorem endsClosed_map_eraseCaptures (qs : List Query) :
    endsClosed (qs.map eraseCaptures) = endsClosed qs := by
  simp [endsClosed, Function.comp_def]

theorem capturesOf_append (qs rs : List Query) :
    capturesOf (qs ++ rs) = capturesOf qs ++ capturesOf rs := by
  induction qs with
  | nil => rfl
  | cons q qs ih => rw [List.cons_append, capturesOf, ih, capturesOf, List.append_assoc]

end Query

namespace State

/-- Two searches at one place, the first of which is still to bind all of some distinct names. -/
structure Fresh (names : List String) (s s' : State) : Prop where
  place : s.SamePlace s'
  nodup : names.Nodup
  unbound : ∀ name ∈ names, s.bindings.get? name = none

namespace Fresh

variable {names rest : List String} {s s' u u' : State}

theorem left (h : Fresh (names ++ rest) s s') : Fresh names s s' where
  place := h.place
  nodup := (List.nodup_append.mp h.nodup).1
  unbound := fun name hname => h.unbound name (List.mem_append_left _ hname)

/-- Once some of the names may be bound, the others are not. -/
theorem right (h : Fresh (names ++ rest) s s') (hplace : u.SamePlace u')
    (hgrows : Bindings.GrowsBy names s.bindings u.bindings) : Fresh rest u u' where
  place := hplace
  nodup := (List.nodup_append.mp h.nodup).2.1
  unbound := by
    intro name hname
    refine Option.eq_none_iff_forall_ne_some.mpr fun n hn => ?_
    rcases hgrows.mem name n hn with hs | hin
    · rw [h.unbound name (List.mem_append_right _ hname)] at hs
      simp at hs
    · exact (List.nodup_append.mp h.nodup).2.2 name hin name hname rfl

theorem startAt (h : Fresh names u u') (hs : s.SamePlace s') :
    Fresh names (u.startAt s) (u'.startAt s') :=
  ⟨h.place.startAt hs, h.nodup, h.unbound⟩

end Fresh

end State

namespace Scene

variable {scene : Scene} {s s' : State}

/-- What acceptance decides has nothing to do with the capture of the filter. -/
def IgnoresCaptures (scene : Scene) : Prop :=
  ∀ f n b, scene.acceptance { f with capture := none } n b = scene.acceptance f n b

theorem accepts_eraseCaptures (hbindings : scene.IgnoresBindings)
    (hcaptures : scene.IgnoresCaptures) {f : Filter}
    (hunbound : ∀ name ∈ f.capture.toList, s.bindings.get? name = none) (id : Nat) :
    scene.accepts f s id = scene.accepts { f with capture := none } s' id := by
  have hconsistent : f.capture.all (fun name =>
      (s.bindings.get? name).all (· == scene.tree.node id)) = true := by
    refine Option.all_eq_true _ _ |>.mpr fun name hname => ?_
    rw [hunbound name (by simp [hname])]
    rfl
  rw [accepts, accepts, hconsistent, hcaptures, hbindings f _ s.bindings s'.bindings]
  rfl

/-- What evaluates a query leaves the names that come after it unbound. -/
theorem paired_fresh {q : Query} {rest : List String} {part part' : Find}
    (h : State.Fresh (q.captures ++ rest) s s') (hbinds : BindsAs (scene.results q) part)
    (hpart : Paired State.SamePlace (part s) (part' s')) :
    Paired (State.Fresh rest) (part s) (part' s') :=
  hpart.imp fun _ hr _ hplace => h.right hplace (growsBy_of_bindsAs hbinds hr)

theorem paired_accumulated_eraseCaptures {children : List Query}
    (hchild : ∀ q ∈ children, ∀ u u', State.Fresh q.captures u u' →
      Paired State.SamePlace (scene.results q u) (scene.results q.eraseCaptures u'))
    (h : State.Fresh (Query.capturesOf children) s s') :
    Paired State.SamePlace (accumulated (children.map scene.results) s)
      (accumulated ((children.map Query.eraseCaptures).map scene.results) s') := by
  induction children using List.reverseRecOn with
  | nil => exact .nil
  | append_singleton front last ih =>
    rw [Query.capturesOf_append] at h
    have hfront := ih (fun q hq => hchild q (List.mem_append_left _ hq)) h.left
    have hgrows : ∀ u ∈ accumulated (front.map scene.results) s,
        Bindings.GrowsBy (Query.capturesOf front) s.bindings u.bindings := by
      refine forall_mem_accumulated (List.forall_mem_map.mpr ?_) (.refl _ _) fun r hr => hr
      intro q hq u hu r hr
      exact hu.trans ((growsBy_of_mem_results q hr).mono fun name hname =>
        Query.mem_capturesOf.mpr ⟨q, hq, hname⟩)
    have hlast : ∀ u u', State.Fresh (Query.capturesOf [last]) u u' →
        Paired State.SamePlace (scene.results last u) (scene.results last.eraseCaptures u') := by
      intro u u' hu
      rw [Query.capturesOf] at hu
      exact hchild last (by simp) u u' hu.left
    have hseeds : Paired (State.Fresh (Query.capturesOf [last]))
        (s :: (accumulated (front.map scene.results) s).map (·.startAt s))
        (s' :: (accumulated ((front.map Query.eraseCaptures).map scene.results) s').map
          (·.startAt s')) := by
      refine (Paired.singleton (h.right h.place (.refl _ _))).append ?_
      refine (hfront.imp fun u hu u' huu => h.right huu (hgrows u hu)).map fun u u' huu => ?_
      exact huu.startAt h.place
    rw [List.map_append, List.map_append, List.map_append, List.map_singleton, List.map_singleton,
      List.map_singleton, accumulated_concat, accumulated_concat]
    exact (hfront.append (hseeds.eraseDups.flatMap hlast)).eraseDups

/-- A query goes through the same places as its erasure. -/
theorem paired_results_eraseCaptures (hbindings : scene.IgnoresBindings)
    (hcaptures : scene.IgnoresCaptures) (q : Query) (h : State.Fresh q.captures s s') :
    Paired State.SamePlace (scene.results q s) (scene.results q.eraseCaptures s') := by
  induction q generalizing s s' with
  | single f nested ih =>
    rw [Query.captures] at h
    rw [Query.eraseCaptures, results_single, results_single, candidates_congr h.place]
    refine (Paired.refl (fun _ => rfl) _).flatMap ?_
    rintro id _ rfl
    have haccepts : scene.accepts f s id = scene.accepts { f with capture := none } s' id :=
      accepts_eraseCaptures hbindings hcaptures h.left.unbound id
    rw [haccepts]
    split
    next haccepted =>
      have hgrows := growsBy_bind_of_accepts (haccepts.trans haccepted)
      have hnested := ih (h.right (.enter scene.tree s s' f.capture none id) hgrows)
      exact paired_below h.place hnested.eq_nil_iff
    next => exact .nil
  | container mode children ih =>
    rw [Query.captures] at h
    rw [Query.eraseCaptures, Query.eraseAllCaptures_eq_map]
    have haccumulated := paired_accumulated_eraseCaptures
      (fun q hq u u' hu => ih q hq hu) h
    cases mode with
    | ordered =>
      rw [results_ordered, results_ordered, List.map_map]
      refine (chain_paired_of_rest (R := fun qs => State.Fresh (Query.capturesOf qs)) ?_ h).imp
        fun r _ r' hr => hr.place
      intro q hq rest u u' hu
      exact paired_fresh hu (.refl _) (ih q hq hu.left)
    | unordered =>
      rw [results_unordered, results_unordered, List.map_map]
      refine (chain_paired_of_rest (R := fun qs => State.Fresh (Query.capturesOf qs)) ?_ h).imp
        fun r _ r' hr => hr.place
      intro q hq rest u u' hu
      refine paired_fresh hu (bindsAs_anywhere s _) ?_
      exact (ih q hq (hu.left.startAt h.place)).map fun r r' hr => hr.notBefore hu.place scene.tree
    | any =>
      rw [results_any, results_any, List.isEmpty_map]
      split
      · exact .singleton h.place
      · exact haccumulated
    | optional =>
      rw [results_optional, results_optional]
      dsimp only
      rw [haccumulated.isEmpty_eq]
      split
      · exact .singleton h.place
      · exact haccumulated
    | exact =>
      have hchain : Paired State.SamePlace
          (chain List.eraseDups ((Query.stretches children).map scene.stretch) s)
          (chain List.eraseDups
            ((Query.stretches (children.map Query.eraseCaptures)).map scene.stretch) s') := by
        rw [Query.stretches_map_eraseCaptures, List.map_map]
        refine (chain_paired_of_rest
          (R := fun parts => State.Fresh (Query.capturesOf (parts.map Prod.fst))) ?_
          ((Query.map_fst_stretches children).symm ▸ h)).imp fun r _ r' hr => hr.place
        intro part hpart rest u u' hu
        refine paired_fresh hu (bindsAs_covering _ _) ?_
        have hfind := ih part.1 (Query.mem_of_mem_stretches hpart) hu.left
        rw [Function.comp_apply, stretch, stretch, Query.isSingle_eraseCaptures]
        exact paired_covering _ hu.place hfind
      rw [results_exact, results_exact, Query.endsClosed_map_eraseCaptures]
      dsimp only
      split
      · exact hchain.filter fun a b hab => by rw [hab.2]
      · exact hchain

end Scene

/-- Captures do not change what exists. If a query captures each name once and no node is accepted
or refused for what is bound, the query leaves the same cursors behind as its erasure, from every
start that binds none of its names, and the one has a match if the other has. -/
theorem Matcher.evaluate_eraseCaptures {m : Matcher} {sub : Subject} (hm : m.IgnoresBindings sub)
    {q : Query} (hq : q.captures.Nodup) :
    q.eraseCaptures.hasCaptures = false ∧
    (∀ (tree : LinkedTree) (s : State), (∀ name ∈ q.captures, s.bindings.get? name = none) →
      ∀ cursor, cursor ∈ ((m.scene sub tree).evaluate q s).items.map State.cursor ↔
        cursor ∈ ((m.scene sub tree).evaluate q.eraseCaptures s).items.map State.cursor) ∧
    m.hasMatch q sub = m.hasMatch q.eraseCaptures sub := by
  have hpaired (tree : LinkedTree) {s : State}
      (hs : ∀ name ∈ q.captures, s.bindings.get? name = none) :
      Paired State.SamePlace ((m.scene sub tree).results q s)
        ((m.scene sub tree).results q.eraseCaptures s) :=
    Scene.paired_results_eraseCaptures (hm.scene tree) (fun _ _ _ => rfl) q
      ⟨⟨rfl, rfl⟩, hq, hs⟩
  refine ⟨q.hasCaptures_eraseCaptures, fun tree s hs => ?_, ?_⟩
  · have hcursors := (hpaired tree hs).map (f := State.cursor) (g := State.cursor) fun _ _ h => h.2
    exact hcursors.mem_iff
  · rw [Bool.eq_iff_iff, hasMatch_iff, hasMatch_iff]
    refine exists_congr fun t => and_congr_right fun _ => not_congr ?_
    exact (hpaired (.ofTree t) fun _ _ => rfl).eq_nil_iff

/-- Captures below an optional container and in an exact one, from a start that has bound another
name. -/
theorem Matcher.evaluate_eraseCaptures_optional_exact :
    let n : Node := .addChildren (.ofType "root")
      [.addChildren (.ofType "a") [.ofType "x"], .ofType "b", .ofType "c"]
    let m : Matcher := {}
    let scene := m.scene (.ofNode n) (.ofTree n.places)
    let inner := Query.single { type := some "a", capture := some "A" }
      (.leaf { capture := some "X" })
    let q : Query := .container .ordered [.container .optional [inner],
      .container .exact [.leaf { direct := true, capture := some "B" }, .leaf {}]]
    let s : State := { State.initial scene.tree with bindings := .ofList [("Q", 2)] }
    q.captures.Nodup ∧ (∀ name ∈ q.captures, s.bindings.get? name = none) ∧
      none ∈ (scene.evaluate q s).items.map State.cursor ∧
      none ∈ (scene.evaluate q.eraseCaptures s).items.map State.cursor ∧
      m.hasMatch q (.ofNode n) = m.hasMatch q.eraseCaptures (.ofNode n) := by
  intro n m scene inner q s
  have hq : q.captures.Nodup := by decide +kernel
  have hs : ∀ name ∈ q.captures, s.bindings.get? name = none := by decide +kernel
  have hend : none ∈ (scene.evaluate q s).items.map State.cursor := by
    refine List.mem_map.mpr
      ⟨⟨0, none, .ofList [("Q", 2), ("A", 1), ("X", 2), ("B", 3)]⟩, ?_, rfl⟩
    rw [Scene.mem_evaluate_iff]
    decide +kernel
  obtain ⟨_, hcursors, hmatch⟩ :=
    Matcher.evaluate_eraseCaptures (Matcher.plain_ignoresBindings {} false (.ofNode n)) hq
  exact ⟨hq, hs, hend, (hcursors scene.tree s hs none).mp hend, hmatch⟩

end TreeQuery
