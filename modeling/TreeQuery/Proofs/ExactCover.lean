import TreeQuery.Proofs.ExactSpans

/-! Exact containers of queries for one child of the scope each. From a child of the scope on, the
queries take the children one for one. From deeper inside, where the next sibling of the cursor is
not a child of the scope, a single query may take the last child and skip those before it. -/

namespace TreeQuery

namespace Query

/-- Asks for a direct child of the scope. -/
def isDirect : Query → Bool
  | single f _ => f.direct
  | container _ _ => false

theorem exists_of_isDirect {q : Query} (h : q.isDirect) :
    ∃ f nested, q = .single f nested ∧ f.direct := by
  cases q with
  | single f nested => exact ⟨f, nested, rfl, h⟩
  | container mode children => simp [isDirect] at h

theorem isSingle_of_isDirect {q : Query} (h : q.isDirect) : q.isSingle := by
  obtain ⟨f, nested, rfl, _⟩ := exists_of_isDirect h
  rfl

end Query

namespace State

variable {t : Tree Nat} {s : State} {c : Nat}

theorem getLast?_childrenAhead_eq_some :
    (s.childrenAhead (.ofTree t)).getLast? = some c ↔
      c ∈ s.childrenAhead (.ofTree t) ∧ (LinkedTree.ofTree t).directNeighbor? c = none := by
  have hsorted := pairwise_childrenAhead t s
  constructor
  · intro h
    obtain ⟨front, hfront⟩ := List.getLast?_eq_some_iff.mp h
    have hmem := List.mem_of_getLast? h
    refine ⟨hmem, Option.eq_none_iff_forall_ne_some.mpr fun next hnext => ?_⟩
    obtain ⟨hparent, first, hfirst, hle⟩ := mem_childrenAhead_iff.mp hmem
    obtain ⟨hsame, rfl⟩ := LinkedTree.directNeighbor?_spec hnext
    have hlt := LinkedTree.lt_stop (LinkedTree.parent?_mem_ancestors hparent)
    have hnextMem : t.stop c ∈ s.childrenAhead (.ofTree t) :=
      mem_childrenAhead_iff.mpr ⟨hsame.trans hparent, first, hfirst, by omega⟩
    rw [hfront] at hnextMem hsorted
    rcases List.mem_append.mp hnextMem with hin | hin
    · have := (List.pairwise_append.mp hsorted).2.2 _ hin c (List.mem_singleton_self c)
      omega
    · have := List.mem_singleton.mp hin
      omega
  · rintro ⟨hmem, hnone⟩
    have hparent := (mem_childrenAhead_iff.mp hmem).1
    have hhas := List.getLast?_eq_some_getLast (List.ne_nil_of_mem hmem)
    obtain ⟨front, hfront⟩ := List.getLast?_eq_some_iff.mp hhas
    generalize List.getLast _ _ = last at hfront
    have hlast : last ∈ s.childrenAhead (.ofTree t) := by simp [hfront]
    have hparentLast := (mem_childrenAhead_iff.mp hlast).1
    rw [hfront, List.getLast?_concat]
    rw [hfront] at hmem hsorted
    rcases List.mem_append.mp hmem with hin | hin
    · have hlt := (List.pairwise_append.mp hsorted).2.2 c hin last (List.mem_singleton_self last)
      have := LinkedTree.stop_le_of_lt_sibling hparent hparentLast hlt
      have := LinkedTree.stop_eq_of_directNeighbor?_eq_none hparent hnone
      have := (LinkedTree.mem_ancestors_iff_lt_stop.mp
        (LinkedTree.parent?_mem_ancestors hparentLast)).2
      omega
    · rw [List.mem_singleton.mp hin]

end State

namespace Scene

variable (scene : Scene)

/-- Single queries take nodes one for one, each under the bindings that the one before leaves. -/
inductive Covers : List Query → List Nat → Bindings → Bindings → Prop
  | nil (b : Bindings) : Covers [] [] b b
  | cons {f : Filter} {nested : Query} {id : Nat} {qs : List Query} {ids : List Nat}
      {a b c : Bindings} (first : scene.Consumes f nested id a b) (rest : Covers qs ids b c) :
      Covers (.single f nested :: qs) (id :: ids) a c

variable {scene} {t : Tree Nat} {s r u : State}

theorem covers_nil_iff {ids : List Nat} {b c : Bindings} :
    scene.Covers [] ids b c ↔ ids = [] ∧ c = b := by
  constructor
  · rintro ⟨⟩
    exact ⟨rfl, rfl⟩
  · rintro ⟨rfl, rfl⟩
    exact .nil c

theorem covers_cons_iff {f : Filter} {nested : Query} {qs : List Query} {ids : List Nat}
    {a c : Bindings} :
    scene.Covers (.single f nested :: qs) ids a c ↔
      ∃ id rest b, ids = id :: rest ∧ scene.Consumes f nested id a b ∧
        scene.Covers qs rest b c := by
  constructor
  · rintro (_ | ⟨first, rest⟩)
    exact ⟨_, _, _, rfl, first, rest⟩
  · rintro ⟨id, rest, b, rfl, first, hrest⟩
    exact .cons first hrest

theorem covers_iff_spans {qs : List Query} (hqs : ∀ q ∈ qs, q.isDirect) {ids : List Nat}
    {a c : Bindings} : scene.Covers qs ids a c ↔ scene.Spans qs ids a c := by
  induction qs generalizing ids a with
  | nil => rw [covers_nil_iff, spans_nil_iff]
  | cons q qs ih =>
    obtain ⟨hq, hrest⟩ := List.forall_mem_cons.mp hqs
    obtain ⟨f, nested, rfl, hdirect⟩ := Query.exists_of_isDirect hq
    simp only [covers_cons_iff, spans_cons_iff, ih hrest, hdirect, Bool.true_eq_false, false_and,
      or_false]
    constructor
    · rintro ⟨id, rest, b, rfl, hconsumes, hspans⟩
      exact ⟨id, rest, id, b, rfl, rfl, hconsumes, hspans⟩
    · rintro ⟨_, rest, id, b, rfl, rfl, hconsumes, hspans⟩
      exact ⟨id, rest, b, rfl, hconsumes, hspans⟩

/-- One query of an exact container: it has to end where the sibling of the cursor begins. -/
theorem mem_covering_iff (hscene : scene.tree = .ofTree t) (hs : s.WellScoped (.ofTree t))
    {f : Filter} {nested : Query} (hdirect : f.direct) :
    u ∈ scene.covering true (scene.results (.single f nested)) s ↔
      ∃ id ∈ s.childrenAhead (.ofTree t), scene.Consumes f nested id s.bindings u.bindings ∧
        u = ⟨s.root, (LinkedTree.ofTree t).directNeighbor? id, u.bindings⟩ ∧
        u.cursor = s.cursor.bind (LinkedTree.ofTree t).directNeighbor? := by
  have hcandidates : (scene.candidates f s).items = s.childrenAhead (.ofTree t) := by
    rw [candidates, if_pos hdirect, hscene, State.items_directChildren hs]
  rw [mem_covering_single_iff hscene hs, hcandidates]
  constructor
  · rintro ⟨c, id, hc, hin, hid, h⟩
    obtain rfl := LinkedTree.eq_of_parent?_eq hc (State.mem_childrenAhead_iff.mp hid).1 hin
    exact ⟨id, hid, h⟩
  · rintro ⟨id, hid, h⟩
    exact ⟨id, id, (State.mem_childrenAhead_iff.mp hid).1, .inl rfl, hid, h⟩

theorem mem_results_exact_iff {qs : List Query} (hqs : ∀ q ∈ qs, q.isDirect) :
    r ∈ scene.results (.container .exact qs) s ↔
      r ∈ chain List.eraseDups (qs.map fun q => scene.covering true (scene.results q)) s ∧
        r.cursor = none :=
  mem_results_exact_singles_iff fun q hq => Query.isSingle_of_isDirect (hqs q hq)

/-- From a child of the scope on, the queries take all the children ahead. -/
theorem mem_chain_covering_iff (hscene : scene.tree = .ofTree t) {qs : List Query}
    (hqs : ∀ q ∈ qs, q.isDirect) (hs : s.AtChild (.ofTree t)) :
    (r ∈ chain List.eraseDups (qs.map fun q => scene.covering true (scene.results q)) s ∧
        r.cursor = none) ↔
      r.root = s.root ∧ r.cursor = none ∧
        scene.Covers qs (s.childrenAhead (.ofTree t)) s.bindings r.bindings := by
  rw [covers_iff_spans hqs]
  exact mem_chain_spans_iff hscene (fun q hq => Query.isSingle_of_isDirect (hqs q hq)) hs

/-- From deeper inside, only one query for the last child ahead can end where the cursor's own next
sibling would be: neither exists. -/
theorem mem_chain_covering_iff_of_parent?_ne (hscene : scene.tree = .ofTree t) {qs : List Query}
    (hqs : ∀ q ∈ qs, q.isDirect) (hs : s.WellScoped (.ofTree t)) {c : Nat} (hc : s.cursor = some c)
    (hparent : (LinkedTree.ofTree t).parent? c ≠ some s.root) :
    (r ∈ chain List.eraseDups (qs.map fun q => scene.covering true (scene.results q)) s ∧
        r.cursor = none) ↔
      r.root = s.root ∧ r.cursor = none ∧ (LinkedTree.ofTree t).directNeighbor? c = none ∧
        ∃ last, (s.childrenAhead (.ofTree t)).getLast? = some last ∧
          scene.Covers qs [last] s.bindings r.bindings := by
  cases qs with
  | nil =>
    simp only [List.map_nil, chain, List.foldl_nil, List.mem_singleton, covers_nil_iff]
    constructor
    · rintro ⟨rfl, hnone⟩
      simp [hc] at hnone
    · simp
  | cons q qs =>
    obtain ⟨hq, hrest⟩ := List.forall_mem_cons.mp hqs
    obtain ⟨f, nested, rfl, hdirect⟩ := Query.exists_of_isDirect hq
    rw [List.map_cons, mem_chain_cons_iff]
    simp only [mem_covering_iff hscene hs hdirect, hc, Option.bind_some, covers_cons_iff,
      State.getLast?_childrenAhead_eq_some]
    have hend (b : Bindings) : State.AtChild (.ofTree t) ⟨s.root, none, b⟩ := by
      simp [State.AtChild]
    constructor
    · rintro ⟨⟨u, ⟨id, hid, hconsumes, hu, hcursor⟩, hr⟩, hnone⟩
      have hidParent := (State.mem_childrenAhead_iff.mp hid).1
      have hends : (LinkedTree.ofTree t).directNeighbor? id = none := by
        refine Option.eq_none_iff_forall_ne_some.mpr fun next hn => hparent ?_
        rw [hu, hn] at hcursor
        exact ((LinkedTree.directNeighbor?_spec hcursor.symm).1.symm.trans
          (LinkedTree.directNeighbor?_spec hn).1).trans hidParent
      rw [hu, hends] at hr hcursor
      obtain ⟨hroot, _, hcovers⟩ := (mem_chain_covering_iff hscene hrest (hend _)).mp ⟨hr, hnone⟩
      rw [State.childrenAhead_eq_nil rfl] at hcovers
      exact ⟨hroot, hnone, hcursor.symm, id, ⟨hid, hends⟩, id, [], u.bindings, rfl, hconsumes,
        hcovers⟩
    · rintro ⟨hroot, hnone, hnext, id, ⟨hid, hends⟩, _, rest, b, hlast, hconsumes, hcovers⟩
      obtain ⟨rfl, rfl⟩ := List.cons.inj hlast
      have hr := (mem_chain_covering_iff hscene hrest (hend b)).mpr ⟨hroot, hnone, hcovers⟩
      refine ⟨⟨⟨s.root, none, b⟩, ⟨id, hid, hconsumes, ?_, hnext.symm⟩, hr.1⟩, hnone⟩
      rw [hends]

/-- What an exact container of queries for direct children finds. Past every node or at a child of
the scope, its queries take just the children ahead, each the one that comes, and none is left over.
With the cursor inside a child, the only results are those of a single query that takes the last
child, whatever lies before it, if the node at the cursor is a last child too. -/
theorem evaluate_exact_direct (hscene : scene.tree = .ofTree t) {qs : List Query}
    (hqs : ∀ q ∈ qs, q.isDirect) (hs : s.WellScoped scene.tree) :
    (s.AtChild scene.tree →
      (r ∈ (scene.evaluate (.container .exact qs) s).items ↔
        r.root = s.root ∧ r.cursor = none ∧
          scene.Covers qs (s.childrenAhead scene.tree) s.bindings r.bindings)) ∧
    ∀ c, s.cursor = some c → scene.tree.parent? c ≠ some s.root →
      (r ∈ (scene.evaluate (.container .exact qs) s).items ↔
        r.root = s.root ∧ r.cursor = none ∧ scene.tree.directNeighbor? c = none ∧
          ∃ last, (s.childrenAhead scene.tree).getLast? = some last ∧
            scene.Covers qs [last] s.bindings r.bindings) := by
  rw [hscene] at hs ⊢
  refine ⟨fun hchild => ?_, fun c hc hparent => ?_⟩
  · exact (mem_results_exact_iff hqs).trans (mem_chain_covering_iff hscene hqs hchild)
  · exact (mem_results_exact_iff hqs).trans
      (mem_chain_covering_iff_of_parent?_ne hscene hqs hs hc hparent)

/-- The last child alone is taken from inside the first, and two queries for both children that are
left find nothing there; from the first child on, three queries cover all. -/
theorem evaluate_exact_direct_three_children :
    let n : Node := .addChildren (.ofType "root")
      [.addChildren (.ofType "p") [.ofType "x", .ofType "y"], .ofType "b", .ofType "c"]
    let scene := ({} : Matcher).scene (.ofNode n) (.ofTree n.places)
    let child (type : String) : Query := .leaf { type := some type, direct := true }
    let inside : State := ⟨0, some 3, .empty⟩
    inside.WellScoped scene.tree ∧ inside.childrenAhead scene.tree = [4, 5] ∧
      (∀ r, r ∉ (scene.evaluate (.container .exact [child "b", child "c"]) inside).items) ∧
      ∃ r, r ∈ (scene.evaluate (.container .exact [child "p", child "b", child "c"])
        (.initial scene.tree)).items := by
  intro n scene child inside
  have hinside : inside.WellScoped scene.tree := by
    rintro c ⟨⟩
    decide +kernel
  refine ⟨hinside, by decide +kernel, fun r hr => ?_, ⟨0, none, .empty⟩, ?_⟩
  · have hdirect : ∀ q ∈ [child "b", child "c"], q.isDirect := by
      simp [child, Query.leaf, Query.isDirect]
    obtain ⟨_, _, _, last, _, hcovers⟩ := ((evaluate_exact_direct rfl hdirect hinside).2 3 rfl
      (by decide +kernel)).mp hr
    obtain ⟨_, rest, _, hlast, _, hrest⟩ := covers_cons_iff.mp hcovers
    obtain ⟨_, _, _, hnone, _⟩ := covers_cons_iff.mp hrest
    simp [hnone] at hlast
  · have hchild : (State.initial scene.tree).AtChild scene.tree := by
      rintro c hc
      exact (LinkedTree.firstChild?_spec hc).1
    have hdirect : ∀ q ∈ [child "p", child "b", child "c"], q.isDirect := by
      simp [child, Query.leaf, Query.isDirect]
    have hconsumes (type : String) (id : Nat) (h : scene.type (scene.tree.node id) = type) :
        scene.Consumes { type := some type, direct := true } .empty id .empty .empty := by
      refine ⟨?_, by simp, ⟨id, scene.tree.firstChild? id, .empty⟩, ?_, rfl⟩
      · exact NodeKind.acceptsBy_iff.mpr ⟨fun _ hname => h.trans (Option.some.inj hname), by simp⟩
      · simp [Query.empty, results_ordered, chain, Bindings.bind]
    refine ((evaluate_exact_direct rfl hdirect hchild.wellScoped).1 hchild).mpr ⟨rfl, rfl, ?_⟩
    have hahead : (State.initial scene.tree).childrenAhead scene.tree = [1, 4, 5] := by
      decide +kernel
    rw [hahead]
    exact .cons (hconsumes "p" 1 (by decide +kernel)) (.cons (hconsumes "b" 4 (by decide +kernel))
      (.cons (hconsumes "c" 5 (by decide +kernel)) (.nil _)))

/-- After a match inside the first child two children are ahead, and an exact container of one query
takes the second of them. -/
theorem exact_skips_sibling :
    let n : Node := .addChildren (.ofType "root")
      [.addChildren (.ofType "p") [.ofType "x", .ofType "y"], .ofType "b", .ofType "c"]
    let m : Matcher := {}
    let scene := m.scene (.ofNode n) (.ofTree n.places)
    let inner : Query := .leaf { type := some "x" }
    let one : Query := .leaf { direct := true, capture := some "N" }
    let s : State := ⟨0, some 3, .empty⟩
    s ∈ (scene.evaluate inner (.initial scene.tree)).items ∧
      s.childrenAhead scene.tree = [4, 5] ∧
      ⟨0, none, .ofList [("N", 5)]⟩ ∈ (scene.evaluate (.container .exact [one]) s).items ∧
      (∀ b, ¬ scene.Covers [one] (s.childrenAhead scene.tree) s.bindings b) ∧
      (m.search (.container .ordered [inner, .container .exact [one]]) (.ofNode n)).items =
        [.ofList [("N", 5)]] := by
  intro n m scene inner one s
  have hahead : s.childrenAhead scene.tree = [4, 5] := by decide +kernel
  refine ⟨?_, hahead, ?_, fun b hcovers => ?_, ?_⟩
  · rw [mem_evaluate_iff]
    decide +kernel
  · rw [mem_evaluate_iff]
    decide +kernel
  · rw [hahead] at hcovers
    obtain ⟨_, rest, _, hcons, _, hrest⟩ := covers_cons_iff.mp hcovers
    obtain ⟨rfl, _⟩ := covers_nil_iff.mp hrest
    simp at hcons
  · rw [Matcher.items_search_ofNode, results_eq_find]
    decide +kernel

end Scene

end TreeQuery
