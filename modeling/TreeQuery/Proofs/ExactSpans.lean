import TreeQuery.Proofs.DirectChildren
import TreeQuery.Proofs.Places
import TreeQuery.Proofs.Singles

/-! Exact containers of single queries, started past every node or at a child of the scope. The
queries share out the children ahead one for one: each takes the child that comes or, unless it asks
for a direct child, a node below it. Wherever that node lies, the search goes on at the next child.
-/

namespace TreeQuery

namespace Query

theorem isPrimitive_of_isSingle {q : Query} (h : q.isSingle) : q.isPrimitive := by
  cases q with
  | single f nested => rfl
  | container mode children => simp [isSingle] at h

theorem exists_of_isSingle {q : Query} (h : q.isSingle) : ∃ f nested, q = .single f nested := by
  cases q with
  | single f nested => exact ⟨f, nested, rfl⟩
  | container mode children => simp [isSingle] at h

theorem stretches_eq_map {children : List Query} (h : ∀ q ∈ children, q.isPrimitive) :
    stretches children = children.map (·, true) := by
  have hclosed : true :: children.map isPrimitive = List.replicate (children.length + 1) true := by
    rw [List.replicate_succ, List.map_congr_left h, List.map_const']
  rw [stretches, hclosed]
  clear hclosed h
  induction children with
  | nil => rfl
  | cons q children ih => rw [List.length_cons, List.replicate_succ, List.zip_cons_cons, ih,
      List.map_cons]

theorem endsClosed_of_isPrimitive {children : List Query} (h : ∀ q ∈ children, q.isPrimitive) :
    endsClosed children = true := by
  cases hlast : children.getLast? with
  | none => simp [endsClosed, hlast]
  | some q => simp [endsClosed, hlast, h q (List.mem_of_getLast? hlast)]

end Query

namespace LinkedTree

variable {t : Tree Nat} {a b c id p : Nat}

theorem stop_le_of_lt_sibling (ha : (ofTree t).parent? a = some p)
    (hb : (ofTree t).parent? b = some p) (h : a < b) : t.stop a ≤ b := by
  refine Nat.le_of_not_lt fun hlt => ?_
  rcases (mem_ancestors_iff hb).mp (mem_ancestors_iff_lt_stop.mpr ⟨h, hlt⟩) with rfl | hin
  · exact Nat.lt_irrefl a (parent?_lt ha)
  · exact Nat.lt_asymm (stop_ancestor hin).1 (parent?_lt ha)

/-- No two children of an id have the same next sibling, nor have both none. -/
theorem eq_of_directNeighbor?_eq (ha : (ofTree t).parent? a = some p)
    (hb : (ofTree t).parent? b = some p)
    (h : (ofTree t).directNeighbor? a = (ofTree t).directNeighbor? b) : a = b := by
  have hstop : t.stop a = t.stop b := by
    cases hn : (ofTree t).directNeighbor? b with
    | none =>
      rw [stop_eq_of_directNeighbor?_eq_none ha (h.trans hn),
        stop_eq_of_directNeighbor?_eq_none hb hn]
    | some next => rw [← (directNeighbor?_spec (h.trans hn)).2, (directNeighbor?_spec hn).2]
  have ha' := lt_stop (parent?_mem_ancestors ha)
  have hb' := lt_stop (parent?_mem_ancestors hb)
  rcases Nat.lt_trichotomy a b with hlt | rfl | hgt
  · have := stop_le_of_lt_sibling ha hb hlt
    omega
  · rfl
  · have := stop_le_of_lt_sibling hb ha hgt
    omega

theorem exists_child_above (h : p ∈ (ofTree t).ancestors id) :
    ∃ c, (ofTree t).parent? c = some p ∧ (id = c ∨ c ∈ (ofTree t).ancestors id) := by
  by_cases hp : (ofTree t).parent? id = some p
  · exact ⟨id, hp, .inl rfl⟩
  · obtain ⟨c, hc, hin⟩ := exists_lastBefore? h hp
    exact ⟨c, (lastBefore?_spec hc).1, .inr hin⟩

theorem eq_of_parent?_eq (hc : (ofTree t).parent? c = some p) (hid : (ofTree t).parent? id = some p)
    (hin : id = c ∨ c ∈ (ofTree t).ancestors id) : id = c := by
  refine hin.resolve_right fun hin => ?_
  rcases (mem_ancestors_iff hid).mp hin with rfl | hin
  · exact Nat.lt_irrefl c (parent?_lt hc)
  · exact Nat.lt_asymm (stop_ancestor hin).1 (parent?_lt hc)

/-- From behind a child, up to where its subtree ends, the next child is its sibling. -/
theorem directChildOf?_of_parent? (hc : (ofTree t).parent? c = some p) (hlt : c < id)
    (hle : id ≤ t.stop c) (hin : p ∈ (ofTree t).ancestors id) :
    (ofTree t).directChildOf? id p = (ofTree t).directNeighbor? c := by
  apply Option.ext
  intro d
  rw [directChildOf?_eq_some_iff]
  constructor
  · rintro ⟨_, ⟨hd, hid⟩, hleast⟩
    have hstop := stop_le_of_lt_sibling hc hd (Nat.lt_of_lt_of_le hlt hid)
    cases hn : (ofTree t).directNeighbor? c with
    | none =>
      have hend := stop_eq_of_directNeighbor?_eq_none hc hn
      have := (mem_ancestors_iff_lt_stop.mp (parent?_mem_ancestors hd)).2
      omega
    | some next =>
      obtain ⟨hsame, rfl⟩ := directNeighbor?_spec hn
      have := hleast ⟨hsame.trans hc, hle⟩
      rw [Nat.le_antisymm this hstop]
  · intro hn
    obtain ⟨hsame, rfl⟩ := directNeighbor?_spec hn
    exact ⟨hin, ⟨hsame.trans hc, hle⟩, fun x hx =>
      stop_le_of_lt_sibling hc hx.1 (Nat.lt_of_lt_of_le hlt hx.2)⟩

end LinkedTree

namespace State

variable {t : Tree Nat} {s : State} {c : Nat}

/-- Past every node or at a child of the scope. -/
def AtChild (t : LinkedTree) (s : State) : Prop :=
  ∀ c, s.cursor = some c → t.parent? c = some s.root

theorem AtChild.wellScoped (h : s.AtChild (.ofTree t)) : s.WellScoped (.ofTree t) :=
  fun c hc => LinkedTree.parent?_mem_ancestors (h c hc)

/-- Past any node of a child's subtree, the next child of the scope is the sibling of that child. -/
theorem aligned_past {id : Nat} (hc : (LinkedTree.ofTree t).parent? c = some s.root)
    (hid : id = c ∨ c ∈ (LinkedTree.ofTree t).ancestors id) (b : Bindings) :
    ((s.past (.ofTree t) id).withBindings b).align (.ofTree t) =
      ⟨s.root, (LinkedTree.ofTree t).directNeighbor? c, b⟩ := by
  have hroot := LinkedTree.parent?_mem_ancestors hc
  obtain ⟨hin, hle, hstop⟩ : s.root ∈ (LinkedTree.ofTree t).ancestors id ∧ c ≤ id ∧
      t.stop id ≤ t.stop c := by
    rcases hid with rfl | hid
    · exact ⟨hroot, Nat.le_refl _, Nat.le_refl _⟩
    · have := LinkedTree.stop_ancestor hid
      exact ⟨LinkedTree.mem_ancestors_trans hroot hid, Nat.le_of_lt this.1, this.2⟩
  have hlt := LinkedTree.lt_stop hin
  have hrootLt := LinkedTree.parent?_lt hc
  simp only [align, aligned?, past, withBindings, LinkedTree.neighborWithin?_of_mem_ancestors hin]
  split
  next hmore =>
    have hnext : s.root ∈ (LinkedTree.ofTree t).ancestors (t.stop id) :=
      LinkedTree.mem_ancestors_iff_lt_stop.mpr ⟨by omega, hmore⟩
    rw [Option.bind_some, LinkedTree.directChildOf?_of_parent? hc (by omega) hstop hnext]
  next hend =>
    have hnone : (LinkedTree.ofTree t).directNeighbor? c = none := by
      refine Option.eq_none_iff_forall_ne_some.mpr fun next hn => hend ?_
      obtain ⟨hsame, rfl⟩ := LinkedTree.directNeighbor?_spec hn
      have := (LinkedTree.mem_ancestors_iff_lt_stop.mp
        (LinkedTree.parent?_mem_ancestors (hsame.trans hc))).2
      omega
    rw [hnone, Option.bind_none]

theorem childrenAhead_eq_nil (h : s.cursor = none) (t : LinkedTree) : s.childrenAhead t = [] := by
  rw [childrenAhead, h]

/-- From a child of the scope, the next sibling leaves all the others ahead. -/
theorem childrenAhead_eq_cons (hc : s.cursor = some c)
    (hparent : (LinkedTree.ofTree t).parent? c = some s.root) (b : Bindings) :
    s.childrenAhead (.ofTree t) =
      c :: childrenAhead (.ofTree t) ⟨s.root, (LinkedTree.ofTree t).directNeighbor? c, b⟩ := by
  let rest : State := ⟨s.root, (LinkedTree.ofTree t).directNeighbor? c, b⟩
  have hrest : ∀ id, id ∈ rest.childrenAhead (.ofTree t) ↔
      (LinkedTree.ofTree t).parent? id = some s.root ∧ c < id := by
    intro id
    rw [mem_childrenAhead_iff]
    refine and_congr_right fun hid => ?_
    have hlt := LinkedTree.lt_stop (LinkedTree.parent?_mem_ancestors hparent)
    constructor
    · rintro ⟨next, hnext, hle⟩
      have hstop := (LinkedTree.directNeighbor?_spec hnext).2
      omega
    · intro hgt
      have hstop := LinkedTree.stop_le_of_lt_sibling hparent hid hgt
      cases hnext : (LinkedTree.ofTree t).directNeighbor? c with
      | some next => exact ⟨next, hnext, (LinkedTree.directNeighbor?_spec hnext).2 ▸ hstop⟩
      | none =>
        have hend := LinkedTree.stop_eq_of_directNeighbor?_eq_none hparent hnext
        have hin : id < t.stop s.root :=
          (LinkedTree.mem_ancestors_iff_lt_stop.mp (LinkedTree.parent?_mem_ancestors hid)).2
        omega
  have hsorted : (c :: rest.childrenAhead (.ofTree t)).Pairwise (· < ·) :=
    List.pairwise_cons.mpr ⟨fun id hid => ((hrest id).mp hid).2, pairwise_childrenAhead t rest⟩
  refine (pairwise_childrenAhead t s).eq_of_mem_iff hsorted fun id => ?_
  rw [mem_childrenAhead_iff, List.mem_cons, hrest, hc]
  simp only [Option.some.injEq, exists_eq_left']
  constructor
  · rintro ⟨hid, hle⟩
    rcases Nat.eq_or_lt_of_le hle with rfl | hlt
    · exact .inl rfl
    · exact .inr ⟨hid, hlt⟩
  · rintro (rfl | ⟨hid, hlt⟩)
    · exact ⟨hparent, Nat.le_refl _⟩
    · exact ⟨hid, Nat.le_of_lt hlt⟩

end State

namespace Scene

variable (scene : Scene)

/-- Single queries take nodes out of the subtrees of the given siblings, one out of each, under the
bindings that the query before leaves. One that asks for a direct child takes the sibling itself. -/
inductive Spans : List Query → List Nat → Bindings → Bindings → Prop
  | nil (b : Bindings) : Spans [] [] b b
  | cons {f : Filter} {nested : Query} {sibling id : Nat} {qs : List Query} {siblings : List Nat}
      {a b c : Bindings}
      (inside : id = sibling ∨ f.direct = false ∧ sibling ∈ scene.tree.ancestors id)
      (first : scene.Consumes f nested id a b) (rest : Spans qs siblings b c) :
      Spans (.single f nested :: qs) (sibling :: siblings) a c

variable {scene} {t : Tree Nat} {s r u : State}

theorem spans_nil_iff {siblings : List Nat} {b c : Bindings} :
    scene.Spans [] siblings b c ↔ siblings = [] ∧ c = b := by
  constructor
  · rintro ⟨⟩
    exact ⟨rfl, rfl⟩
  · rintro ⟨rfl, rfl⟩
    exact .nil c

theorem spans_cons_iff {f : Filter} {nested : Query} {qs : List Query} {siblings : List Nat}
    {a c : Bindings} :
    scene.Spans (.single f nested :: qs) siblings a c ↔
      ∃ sibling rest id b, siblings = sibling :: rest ∧
        (id = sibling ∨ f.direct = false ∧ sibling ∈ scene.tree.ancestors id) ∧
        scene.Consumes f nested id a b ∧ scene.Spans qs rest b c := by
  constructor
  · rintro (_ | ⟨inside, first, rest⟩)
    exact ⟨_, _, _, _, rfl, inside, first, rest⟩
  · rintro ⟨sibling, rest, id, b, rfl, inside, first, hrest⟩
    exact .cons inside first hrest

theorem Spans.length_eq {qs : List Query} {siblings : List Nat} {b c : Bindings}
    (h : scene.Spans qs siblings b c) : siblings.length = qs.length := by
  induction h with
  | nil b => rfl
  | cons inside first rest ih => rw [List.length_cons, List.length_cons, ih]

/-- One query of an exact container: the search goes on at the sibling of the child that it has
taken a node from, and that has to be the sibling of the cursor. -/
theorem mem_covering_single_iff (hscene : scene.tree = .ofTree t) (hs : s.WellScoped (.ofTree t))
    {f : Filter} {nested : Query} :
    u ∈ scene.covering true (scene.results (.single f nested)) s ↔
      ∃ c id, (LinkedTree.ofTree t).parent? c = some s.root ∧
        (id = c ∨ c ∈ (LinkedTree.ofTree t).ancestors id) ∧
        id ∈ (scene.candidates f s).items ∧ scene.Consumes f nested id s.bindings u.bindings ∧
        u = ⟨s.root, (LinkedTree.ofTree t).directNeighbor? c, u.bindings⟩ ∧
        u.cursor = s.cursor.bind (LinkedTree.ofTree t).directNeighbor? := by
  have hcandidates {id : Nat} (hid : id ∈ (scene.candidates f s).items) :
      s.Reaches (.ofTree t) id := ((mem_candidates_iff hscene hs).mp hid).1
  have hfound : u ∈ (scene.results (.single f nested) s).map (·.align (.ofTree t)) ↔
      ∃ c id, (LinkedTree.ofTree t).parent? c = some s.root ∧
        (id = c ∨ c ∈ (LinkedTree.ofTree t).ancestors id) ∧
        id ∈ (scene.candidates f s).items ∧ scene.Consumes f nested id s.bindings u.bindings ∧
        u = ⟨s.root, (LinkedTree.ofTree t).directNeighbor? c, u.bindings⟩ := by
    rw [List.mem_map]
    constructor
    · rintro ⟨r, hr, rfl⟩
      obtain ⟨id, hid, hconsumes, he⟩ := mem_results_single_iff.mp hr
      obtain ⟨c, hc, hin⟩ := LinkedTree.exists_child_above (hcandidates hid).1
      refine ⟨c, id, hc, hin, hid, hconsumes, ?_⟩
      rw [he, hscene, State.aligned_past hc hin]
    · rintro ⟨c, id, hc, hin, hid, hconsumes, he⟩
      refine ⟨(s.past (.ofTree t) id).withBindings u.bindings, ?_, ?_⟩
      · refine mem_results_single_iff.mpr ⟨id, hid, hconsumes, ?_⟩
        rw [hscene]
        rfl
      · rw [State.aligned_past hc hin, ← he]
  rw [covering, if_pos rfl, hscene]
  split
  · simp only [List.mem_filter, decide_eq_true_eq, hfound]
    constructor
    · rintro ⟨⟨c, id, hc, hin, hid, hconsumes, hu⟩, hcursor⟩
      exact ⟨c, id, hc, hin, hid, hconsumes, hu, hcursor⟩
    · rintro ⟨c, id, hc, hin, hid, hconsumes, hu, hcursor⟩
      exact ⟨⟨c, id, hc, hin, hid, hconsumes, hu⟩, hcursor⟩
  next hnone =>
    constructor
    · intro h
      simp at h
    · rintro ⟨c, id, _, _, hid, _⟩
      obtain ⟨_, first, hfirst, _⟩ := hcandidates hid
      simp [hfirst] at hnone

/-- At a child of the scope, a query takes a node of the subtree there. -/
theorem mem_covering_single_iff_of_atChild (hscene : scene.tree = .ofTree t)
    (hs : s.AtChild (.ofTree t))
    {c : Nat} (hc : s.cursor = some c) {f : Filter} {nested : Query} :
    u ∈ scene.covering true (scene.results (.single f nested)) s ↔
      ∃ id, (id = c ∨ f.direct = false ∧ c ∈ (LinkedTree.ofTree t).ancestors id) ∧
        scene.Consumes f nested id s.bindings u.bindings ∧
        u = ⟨s.root, (LinkedTree.ofTree t).directNeighbor? c, u.bindings⟩ := by
  have hparent := hs c hc
  have hroot := LinkedTree.parent?_mem_ancestors hparent
  rw [mem_covering_single_iff hscene hs.wellScoped, hc, Option.bind_some]
  simp only [mem_candidates_iff hscene hs.wellScoped]
  constructor
  · rintro ⟨z, id, hz, hin, ⟨_, hdirect⟩, hconsumes, hu, hcursor⟩
    rw [hu] at hcursor
    obtain rfl := LinkedTree.eq_of_directNeighbor?_eq hz hparent hcursor
    refine ⟨id, ?_, hconsumes, hu⟩
    cases hf : f.direct with
    | false => exact hin.imp_right fun h => ⟨rfl, h⟩
    | true => exact .inl (LinkedTree.eq_of_parent?_eq hz (hdirect hf) hin)
  · rintro ⟨id, hin, hconsumes, hu⟩
    refine ⟨c, id, hparent, hin.imp_right And.right, ⟨⟨?_, c, hc, ?_⟩, ?_⟩, hconsumes, hu, ?_⟩
    · rcases hin with rfl | ⟨_, hin⟩
      · exact hroot
      · exact LinkedTree.mem_ancestors_trans hroot hin
    · rcases hin with rfl | ⟨_, hin⟩
      · exact Nat.le_refl _
      · exact Nat.le_of_lt (LinkedTree.stop_ancestor hin).1
    · intro hdirect
      rcases hin with rfl | ⟨hf, _⟩
      · exact hparent
      · simp [hf] at hdirect
    · rw [hu]

theorem mem_results_exact_singles_iff {qs : List Query} (hqs : ∀ q ∈ qs, q.isSingle) :
    r ∈ scene.results (.container .exact qs) s ↔
      r ∈ chain List.eraseDups (qs.map fun q => scene.covering true (scene.results q)) s ∧
        r.cursor = none := by
  have hprimitive : ∀ q ∈ qs, q.isPrimitive := fun q hq => Query.isPrimitive_of_isSingle (hqs q hq)
  have hstretch : ∀ q ∈ qs, scene.stretch (q, true) = scene.covering true (scene.results q) := by
    intro q hq
    rw [stretch, hqs q hq]
    rfl
  rw [results_exact, Query.stretches_eq_map hprimitive, List.map_map]
  simp only [Query.endsClosed_of_isPrimitive hprimitive, if_true, List.mem_filter,
    Option.isNone_iff_eq_none]
  rw [← List.map_congr_left hstretch]
  rfl

/-- From a child of the scope on, the queries share out all the children ahead. -/
theorem mem_chain_spans_iff (hscene : scene.tree = .ofTree t) {qs : List Query}
    (hqs : ∀ q ∈ qs, q.isSingle) (hs : s.AtChild (.ofTree t)) :
    (r ∈ chain List.eraseDups (qs.map fun q => scene.covering true (scene.results q)) s ∧
        r.cursor = none) ↔
      r.root = s.root ∧ r.cursor = none ∧
        scene.Spans qs (s.childrenAhead (.ofTree t)) s.bindings r.bindings := by
  induction qs generalizing s with
  | nil =>
    rw [spans_nil_iff]
    simp only [List.map_nil, chain, List.foldl_nil, List.mem_singleton]
    constructor
    · rintro ⟨rfl, hnone⟩
      exact ⟨rfl, hnone, State.childrenAhead_eq_nil hnone _, rfl⟩
    · rintro ⟨hroot, hnone, hahead, hbindings⟩
      refine ⟨?_, hnone⟩
      cases hc : s.cursor with
      | none =>
        cases r
        cases s
        simp_all
      | some c => simp [State.childrenAhead_eq_cons hc (hs c hc) s.bindings] at hahead
  | cons q qs ih =>
    obtain ⟨hq, hrest⟩ := List.forall_mem_cons.mp hqs
    obtain ⟨f, nested, rfl⟩ := Query.exists_of_isSingle hq
    rw [List.map_cons, mem_chain_cons_iff, spans_cons_iff]
    cases hc : s.cursor with
    | none => simp [covering, hc, State.childrenAhead_eq_nil hc]
    | some c =>
      have hparent := hs c hc
      have hnext (b : Bindings) : State.AtChild (.ofTree t)
          ⟨s.root, (LinkedTree.ofTree t).directNeighbor? c, b⟩ :=
        fun next hn => (LinkedTree.directNeighbor?_spec hn).1.trans hparent
      simp only [mem_covering_single_iff_of_atChild hscene hs hc]
      constructor
      · rintro ⟨⟨u, ⟨id, hin, hconsumes, hu⟩, hr⟩, hnone⟩
        rw [hu] at hr
        obtain ⟨hroot, _, hspans⟩ := (ih hrest (hnext u.bindings)).mp ⟨hr, hnone⟩
        have hcons := State.childrenAhead_eq_cons hc hparent u.bindings
        exact ⟨hroot, hnone, c, _, id, u.bindings, hcons, hscene ▸ hin, hconsumes, hspans⟩
      · rintro ⟨hroot, hnone, sibling, rest, id, b, hahead, hin, hconsumes, hspans⟩
        have hcons := State.childrenAhead_eq_cons hc hparent b
        obtain ⟨rfl, rfl⟩ := List.cons.inj (hahead.symm.trans hcons)
        have hr := (ih hrest (hnext b)).mpr ⟨hroot, hnone, hspans⟩
        exact ⟨⟨_, ⟨id, hscene ▸ hin, hconsumes, rfl⟩, hr.1⟩, hnone⟩

/-- What an exact container of single queries finds, past every node or at a child of the scope. Its
queries share out just the children ahead, one for each, and what they bind is bound from left to
right; none is skipped and none is left over. Without queries nothing may be ahead. -/
theorem evaluate_exact_singles (hscene : scene.tree = .ofTree t) {qs : List Query}
    (hqs : ∀ q ∈ qs, q.isSingle) (hs : s.AtChild scene.tree) :
    (r ∈ (scene.evaluate (.container .exact qs) s).items ↔
      r.root = s.root ∧ r.cursor = none ∧
        scene.Spans qs (s.childrenAhead scene.tree) s.bindings r.bindings) ∧
    (r ∈ (scene.evaluate (.container .exact qs) s).items →
      (s.childrenAhead scene.tree).length = qs.length) ∧
    (r ∈ (scene.evaluate (.container .exact []) s).items ↔ r = s ∧ s.cursor = none) := by
  rw [hscene] at hs ⊢
  have hresults : r ∈ (scene.evaluate (.container .exact qs) s).items ↔ r.root = s.root ∧
      r.cursor = none ∧ scene.Spans qs (s.childrenAhead (.ofTree t)) s.bindings r.bindings :=
    (mem_results_exact_singles_iff hqs).trans (mem_chain_spans_iff hscene hqs hs)
  refine ⟨hresults, fun hr => (hresults.mp hr).2.2.length_eq, ?_⟩
  refine (mem_results_exact_singles_iff (by simp)).trans ?_
  simp only [List.map_nil, chain, List.foldl_nil, List.mem_singleton]
  exact and_congr_right fun he => he ▸ Iff.rfl

/-- A node below the first child, the second with a node below it, and the third itself. -/
theorem evaluate_exact_singles_below_children :
    let n : Node := .addChildren (.ofType "root")
      [.addChildren (.ofType "p") [.ofType "x", .ofType "y"],
        .addChildren (.ofType "b") [.ofType "z"], .ofType "c"]
    let scene := ({} : Matcher).scene (.ofNode n) (.ofTree n.places)
    let qs : List Query :=
      [.leaf { type := some "x", capture := some "X" },
        .single { type := some "b" } (.leaf { capture := some "Z" }),
        .leaf { type := some "c", direct := true }]
    let s : State := .initial scene.tree
    let r : State := ⟨0, none, .ofList [("X", 2), ("Z", 5)]⟩
    (∀ q ∈ qs, q.isSingle) ∧ s.AtChild scene.tree ∧ s.childrenAhead scene.tree = [1, 4, 6] ∧
      r ∈ (scene.evaluate (.container .exact qs) s).items ∧
      scene.Spans qs [1, 4, 6] .empty r.bindings := by
  intro n scene qs s r
  have hqs : ∀ q ∈ qs, q.isSingle := by simp [qs, Query.leaf, Query.isSingle]
  have hs : s.AtChild scene.tree := fun c hc => (LinkedTree.firstChild?_spec hc).1
  have hahead : s.childrenAhead scene.tree = [1, 4, 6] := by decide +kernel
  have hr : r ∈ (scene.evaluate (.container .exact qs) s).items := by
    rw [mem_evaluate_iff]
    decide +kernel
  have hspans := ((evaluate_exact_singles rfl hqs hs).1.mp hr).2.2
  rw [hahead] at hspans
  exact ⟨hqs, hs, hahead, hr, hspans⟩

end Scene

end TreeQuery
