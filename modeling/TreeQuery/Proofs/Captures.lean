import Mathlib.Data.List.Induction
import TreeQuery.Proofs.ListEvaluation

/-! What a search binds. Bindings only grow, a name that is new is a capture name of the query, and
every capture outside the `any` and `optional` containers is bound, to a node that its filter has
accepted. -/

namespace TreeQuery

namespace Query

mutual

/-- Every name that a query may bind. -/
def captures : Query → List String
  | single f nested => f.capture.toList ++ nested.captures
  | container _ children => capturesOf children

def capturesOf : List Query → List String
  | [] => []
  | q :: qs => q.captures ++ capturesOf qs

end

mutual

/-- The filters that no result goes without: those outside the `any` and `optional` containers. -/
def required : Query → List Filter
  | single f nested => f :: nested.required
  | container mode children => if mode.requiresAll then requiredOf children else []

def requiredOf : List Query → List Filter
  | [] => []
  | q :: qs => q.required ++ requiredOf qs

end

theorem mem_capturesOf {name : String} {qs : List Query} :
    name ∈ capturesOf qs ↔ ∃ q ∈ qs, name ∈ q.captures := by
  induction qs with
  | nil => simp [capturesOf]
  | cons q qs ih => simp [capturesOf, ih]

theorem mem_requiredOf {f : Filter} {qs : List Query} :
    f ∈ requiredOf qs ↔ ∃ q ∈ qs, f ∈ q.required := by
  induction qs with
  | nil => simp [requiredOf]
  | cons q qs ih => simp [requiredOf, ih]

theorem map_fst_stretches (children : List Query) :
    (stretches children).map Prod.fst = children :=
  List.map_fst_zip (by simp)

theorem exists_mem_stretches {q : Query} {children : List Query} (h : q ∈ children) :
    ∃ part ∈ stretches children, part.1 = q :=
  List.mem_map.mp ((map_fst_stretches children).symm ▸ h)

end Query

/-- Where no name comes twice, an entry is what its name leads to. -/
theorem mem_iff_lookup_of_nodup {α : Type} {fields : List (String × α)}
    (h : (fields.map Prod.fst).Nodup) (name : String) (a : α) :
    (name, a) ∈ fields ↔ fields.lookup name = some a := by
  induction fields with
  | nil => simp
  | cons f fs ih =>
    rw [List.map_cons, List.nodup_cons] at h
    rw [lookup_cons_eq_ite, List.mem_cons, ih h.2]
    by_cases hn : name = f.1
    · subst hn
      have hnone : ¬ fs.lookup f.1 = some a := by
        rw [← ih h.2]
        exact fun hmem => h.1 (List.mem_map.mpr ⟨_, hmem, rfl⟩)
      simp [hnone, Prod.ext_iff, eq_comm]
    · simp [hn, Prod.ext_iff]

theorem Sorted.nodup_names {α : Type} {fields : List (String × α)} (h : Sorted fields) :
    (fields.map Prod.fst).Nodup := by
  refine List.pairwise_map.mpr (h.imp fun hlt he => ?_)
  rw [he] at hlt
  exact String.lt_irrefl _ hlt

theorem mem_iff_lookup {α : Type} {fields : List (String × α)} (h : Sorted fields) (name : String)
    (a : α) : (name, a) ∈ fields ↔ fields.lookup name = some a :=
  mem_iff_lookup_of_nodup h.nodup_names name a

namespace Bindings

theorem ext_get? {b c : Bindings} (h : ∀ name, b.get? name = c.get? name) : b = c := by
  have hnodup (b : Bindings) : b.entries.Nodup := by
    refine List.Pairwise.imp ?_ b.sorted
    rintro e f hlt rfl
    exact String.lt_irrefl _ hlt
  have hperm : b.entries.Perm c.entries := by
    refine (List.perm_ext_iff_of_nodup (hnodup b) (hnodup c)).mpr fun e => ?_
    rw [mem_iff_lookup b.sorted, mem_iff_lookup c.sorted]
    exact iff_of_eq (congrArg (· = some e.2) (h e.1))
  have hentries := List.Perm.eq_of_pairwise
    (fun e f _ _ hef hfe => absurd (String.lt_trans hef hfe) (String.lt_irrefl _))
    b.sorted c.sorted hperm
  cases b
  cases c
  simpa using hentries

/-- What is bound stays bound to the same node. -/
instance : LE Bindings := ⟨fun b c => ∀ name n, b.get? name = some n → c.get? name = some n⟩

theorem le_refl (b : Bindings) : b ≤ b := fun _ _ h => h

theorem le_trans {a b c : Bindings} (hab : a ≤ b) (hbc : b ≤ c) : a ≤ c :=
  fun name n h => hbc name n (hab name n h)

/-- Bound over those of `b`, and only to names of the list. -/
structure GrowsBy (names : List String) (b c : Bindings) : Prop where
  le : b ≤ c
  mem : ∀ name n, c.get? name = some n → b.get? name = some n ∨ name ∈ names

namespace GrowsBy

variable {names names' : List String} {a b c : Bindings}

theorem refl (names : List String) (b : Bindings) : GrowsBy names b b :=
  ⟨le_refl b, fun _ _ h => .inl h⟩

theorem trans (hab : GrowsBy names a b) (hbc : GrowsBy names b c) : GrowsBy names a c where
  le := le_trans hab.le hbc.le
  mem := fun name n h => (hbc.mem name n h).elim (hab.mem name n) .inr

theorem mono (h : GrowsBy names b c) (hsub : ∀ name ∈ names, name ∈ names') :
    GrowsBy names' b c :=
  ⟨h.le, fun name n hn => (h.mem name n hn).imp_right (hsub name)⟩

theorem eq_of_nil (h : GrowsBy [] b c) : c = b := by
  refine ext_get? fun name => Option.ext fun n => ⟨fun hn => ?_, h.le name n⟩
  exact (h.mem name n hn).resolve_right (by simp)

end GrowsBy

end Bindings

/-- Whatever `part` finds, `find` finds with the same bindings from a state with the same ones. -/
def BindsAs (find part : Find) : Prop :=
  ∀ s, ∀ r ∈ part s, ∃ s', ∃ r' ∈ find s', s'.bindings = s.bindings ∧ r'.bindings = r.bindings

theorem BindsAs.refl (find : Find) : BindsAs find find := fun s r hr => ⟨s, r, hr, rfl, rfl⟩

/-- What a chain finds has gone through every part of it. -/
theorem exists_of_mem_chain {R : State → State → Prop} (hrefl : ∀ s, R s s)
    (htrans : ∀ s u r, R s u → R u r → R s r) {parts : List Find}
    (hparts : ∀ part ∈ parts, ∀ s, ∀ r ∈ part s, R s r) {s r : State}
    (hr : r ∈ chain List.eraseDups parts s) :
    R s r ∧ ∀ part ∈ parts, ∃ u, ∃ v ∈ part u, R s u ∧ R v r := by
  induction parts using List.reverseRecOn generalizing r with
  | nil =>
    obtain rfl : r = s := by simpa [chain] using hr
    exact ⟨hrefl r, by simp⟩
  | append_singleton front last ih =>
    rw [chain_concat] at hr
    obtain ⟨u, hu, hr⟩ := List.mem_flatMap.mp (List.mem_eraseDups.mp hr)
    obtain ⟨hsu, hfront⟩ := ih (fun part hp => hparts part (List.mem_append_left _ hp)) hu
    have hur := hparts last (by simp) u r hr
    refine ⟨htrans s u r hsu hur, fun part hp => ?_⟩
    rcases List.mem_append.mp hp with hp | hp
    · obtain ⟨v, w, hw, hsv, hwu⟩ := hfront part hp
      exact ⟨v, w, hw, hsv, htrans w u r hwu hur⟩
    · obtain rfl := List.mem_singleton.mp hp
      exact ⟨u, r, hr, hsu, hrefl r⟩

namespace State

@[simp] theorem bindings_notBefore (t : LinkedTree) (s other : State) :
    (s.notBefore t other).bindings = s.bindings := by
  rw [notBefore]
  split
  · split <;> rfl
  · rfl

end State

namespace Scene

variable {scene : Scene} {s r : State}

theorem bindsAs_anywhere (start : State) (find : Find) :
    BindsAs find (scene.anywhere start find) := by
  intro s r hr
  obtain ⟨found, hf, rfl⟩ := List.mem_map.mp hr
  exact ⟨_, found, hf, rfl, (State.bindings_notBefore ..).symm⟩

theorem bindsAs_covering (nextOnly : Bool) (find : Find) :
    BindsAs find (scene.covering nextOnly find) := by
  intro s r hr
  obtain ⟨found, hf, rfl⟩ := exists_of_mem_covering hr
  exact ⟨s, found, hf, rfl, rfl⟩

/-- A container all of whose children have to match is a chain with parts for just them. -/
theorem exists_chain_of_mem_results {mode : Mode} (hmode : mode.requiresAll)
    {children : List Query} (hr : r ∈ scene.results (.container mode children) s) :
    ∃ parts, r ∈ chain List.eraseDups parts s ∧
      (∀ part ∈ parts, ∃ q ∈ children, BindsAs (scene.results q) part) ∧
      ∀ q ∈ children, ∃ part ∈ parts, BindsAs (scene.results q) part := by
  cases mode with
  | ordered =>
    rw [results_ordered] at hr
    exact ⟨_, hr, List.forall_mem_map.mpr fun q hq => ⟨q, hq, .refl _⟩,
      fun q hq => ⟨_, List.mem_map_of_mem hq, .refl _⟩⟩
  | unordered =>
    rw [results_unordered] at hr
    exact ⟨_, hr, List.forall_mem_map.mpr fun q hq => ⟨q, hq, bindsAs_anywhere s _⟩,
      fun q hq => ⟨_, List.mem_map_of_mem hq, bindsAs_anywhere s _⟩⟩
  | exact =>
    refine ⟨_, mem_chain_of_mem_results_exact hr, List.forall_mem_map.mpr fun part hpart =>
      ⟨part.1, Query.mem_of_mem_stretches hpart, bindsAs_covering _ _⟩, fun q hq => ?_⟩
    obtain ⟨part, hpart, rfl⟩ := Query.exists_mem_stretches hq
    exact ⟨_, List.mem_map_of_mem hpart, bindsAs_covering _ _⟩
  | any => simp [Mode.requiresAll] at hmode
  | optional => simp [Mode.requiresAll] at hmode

section Containers

variable {R : Bindings → Bindings → Prop} (hrefl : ∀ b, R b b)
  (htrans : ∀ {a b c}, R a b → R b c → R a c) {mode : Mode} {children : List Query}
  (hchildren : ∀ q ∈ children, ∀ s, ∀ r ∈ scene.results q s, R s.bindings r.bindings)

include hrefl htrans hchildren

/-- Each child that has to match goes on from the bindings of the start, and the search from its. -/
theorem exists_of_mem_results_container (hmode : mode.requiresAll)
    (hr : r ∈ scene.results (.container mode children) s) {q : Query} (hq : q ∈ children) :
    ∃ u, ∃ v ∈ scene.results q u, R s.bindings u.bindings ∧ R v.bindings r.bindings := by
  obtain ⟨parts, hchain, hparts, hall⟩ := exists_chain_of_mem_results hmode hr
  have hstep : ∀ part ∈ parts, ∀ u, ∀ v ∈ part u, R u.bindings v.bindings := by
    intro part hpart u v hv
    obtain ⟨q, hq, hbinds⟩ := hparts part hpart
    obtain ⟨u', v', hv', hu, hv⟩ := hbinds u v hv
    rw [← hu, ← hv]
    exact hchildren q hq u' v' hv'
  obtain ⟨_, hvisits⟩ := exists_of_mem_chain (R := fun u v => R u.bindings v.bindings)
    (fun u => hrefl u.bindings) (fun _ _ _ => htrans) hstep hchain
  obtain ⟨part, hpart, hbinds⟩ := hall q hq
  obtain ⟨u, v, hv, hsu, hvr⟩ := hvisits part hpart
  obtain ⟨u', v', hv', hu, hv⟩ := hbinds u v hv
  exact ⟨u', v', hv', hu ▸ hsu, hv ▸ hvr⟩

theorem related_of_mem_results_container (hr : r ∈ scene.results (.container mode children) s) :
    R s.bindings r.bindings := by
  have hstep : ∀ q ∈ children, ∀ u, R s.bindings u.bindings → ∀ r ∈ scene.results q u,
      R s.bindings r.bindings :=
    fun q hq u hu r hr => htrans hu (hchildren q hq u r hr)
  refine forall_mem_results_container (P := fun r => R s.bindings r.bindings) (hrefl _) hstep ?_
    (fun r hr => hr) (fun _ => ?_) r hr
  · intro q hq u hu r hr
    obtain ⟨found, hf, rfl⟩ := List.mem_map.mp hr
    rw [State.bindings_notBefore]
    exact hstep q hq (u.startAt s) hu found hf
  · exact forall_mem_accumulated (P := fun r => R s.bindings r.bindings)
      (List.forall_mem_map.mpr hstep) (hrefl _) fun r hr => hr

end Containers

/-- A name that is bound already is bound again, but only to its own node. -/
theorem le_bind_of_accepts {f : Filter} {id : Nat} (h : scene.accepts f s id) :
    s.bindings ≤ s.bindings.bind f.capture (scene.tree.node id) := by
  intro name n hn
  rw [Bindings.get?_bind]
  split
  next hname =>
    have hsame : scene.tree.node id = n := by
      simp only [accepts, hname, hn, Option.all_some, Bool.and_eq_true, beq_iff_eq] at h
      exact h.2.symm
    rw [hsame]
  next => exact hn

theorem growsBy_bind_of_accepts {f : Filter} {id : Nat} (h : scene.accepts f s id) :
    Bindings.GrowsBy f.capture.toList s.bindings
      (s.bindings.bind f.capture (scene.tree.node id)) where
  le := le_bind_of_accepts h
  mem := by
    intro name n hn
    rw [Bindings.get?_bind] at hn
    split at hn
    next hname => exact .inr (by simp [hname])
    next => exact .inl hn

theorem growsBy_of_mem_results (q : Query) (hr : r ∈ scene.results q s) :
    Bindings.GrowsBy q.captures s.bindings r.bindings := by
  induction q generalizing s r with
  | single f nested ih =>
    obtain ⟨id, _, haccepts, x, hx, rfl⟩ := exists_of_mem_results_single hr
    rw [Query.captures]
    exact ((growsBy_bind_of_accepts haccepts).mono fun _ => List.mem_append_left _).trans
      ((ih hx).mono fun _ => List.mem_append_right _)
  | container mode children ih =>
    rw [Query.captures]
    refine related_of_mem_results_container (Bindings.GrowsBy.refl _) Bindings.GrowsBy.trans ?_ hr
    intro q hq s r hr
    exact (ih q hq hr).mono fun name h => Query.mem_capturesOf.mpr ⟨q, hq, h⟩

theorem growsBy_of_bindsAs {q : Query} {part : Find} (h : BindsAs (scene.results q) part)
    (hr : r ∈ part s) : Bindings.GrowsBy q.captures s.bindings r.bindings := by
  obtain ⟨s', r', hr', hs, hr⟩ := h s r hr
  rw [← hs, ← hr]
  exact growsBy_of_mem_results q hr'

/-- A node that `f` has accepted under some of the bindings of a result, and what is bound to it. -/
structure Found (scene : Scene) (f : Filter) (s r : State) (b : Bindings) (n : Nat) : Prop where
  start_le : s.bindings ≤ b
  le_result : b ≤ r.bindings
  accepted : scene.acceptance f n b
  bound : ∀ name, f.capture = some name → r.bindings.get? name = some n

theorem exists_found_of_mem_results (q : Query) (hr : r ∈ scene.results q s) {f : Filter}
    (hf : f ∈ q.required) : ∃ b n, scene.Found f s r b n := by
  induction q generalizing s r with
  | single g nested ih =>
    obtain ⟨id, _, haccepts, x, hx, rfl⟩ := exists_of_mem_results_single hr
    have hbind := le_bind_of_accepts haccepts
    have hnested := (growsBy_of_mem_results nested hx).le
    rw [Query.required] at hf
    rcases List.mem_cons.mp hf with rfl | hf
    · refine ⟨s.bindings, scene.tree.node id, Bindings.le_refl _,
        Bindings.le_trans hbind hnested, ?_, fun name hname => hnested name _ ?_⟩
      · exact (Bool.and_eq_true_iff.mp haccepts).1
      · simp [State.enter, hname, Bindings.get?_bind]
    · obtain ⟨b, n, h⟩ := ih hx hf
      exact ⟨b, n, Bindings.le_trans hbind h.start_le, h.le_result, h.accepted, h.bound⟩
  | container mode children ih =>
    rw [Query.required] at hf
    split at hf
    next hmode =>
      obtain ⟨q, hq, hf⟩ := Query.mem_requiredOf.mp hf
      obtain ⟨u, v, hv, hsu, hvr⟩ := exists_of_mem_results_container Bindings.le_refl
        Bindings.le_trans (fun q _ s r hr => (growsBy_of_mem_results q hr).le) hmode hr hq
      obtain ⟨b, n, h⟩ := ih q hq hv hf
      exact ⟨b, n, Bindings.le_trans hsu h.start_le, Bindings.le_trans h.le_result hvr, h.accepted,
        fun name hname => hvr name n (h.bound name hname)⟩
    next => simp at hf

end Scene

theorem NodeKind.acceptsBy_iff {test : PropertyTest} {sub : Subject} {n : Nat}
    {type : Option String} {properties : Option Properties} {b : Bindings} :
    acceptsBy test sub n type properties b ↔
      (∀ name, type = some name → sub.type n = name) ∧
      ∀ ps, properties = some ps → ∀ e ∈ ps.entries, test sub n e.1 e.2 b := by
  simp only [acceptsBy, Bool.and_eq_true, Option.all_eq_true, beq_iff_eq, List.all_eq_true]
  exact and_congr_left' ⟨fun h name hn => (h name hn).symm, fun h name hn => (h name hn).symm⟩

/-- The captures of a result: all those of its start, at the same nodes, and new ones for names of
the query only. Every filter that the query insists on has its name bound. If node kinds decide by
their types and a test of each property, the node passes them all, the test being asked with some of
the bindings of the result, which the test of plain nodes does not look at. -/
theorem Matcher.evaluate_captures (m : Matcher) (sub : Subject) (tree : LinkedTree) (q : Query)
    {s r : State} (hr : r ∈ ((m.scene sub tree).evaluate q s).items) :
    (∀ name n, s.bindings.get? name = some n → r.bindings.get? name = some n) ∧
    (∀ name n, r.bindings.get? name = some n → s.bindings.get? name = none → name ∈ q.captures) ∧
    ∀ f ∈ q.required, ∀ name, f.capture = some name →
      ∃ n, r.bindings.get? name = some n ∧
        ∀ test, m.kind = .ofTest test → m.predicate = none →
          (∀ type, f.type = some type → sub.type n = type) ∧
          ∃ b, s.bindings ≤ b ∧ b ≤ r.bindings ∧
            ∀ ps, f.properties = some ps → ∀ e ∈ ps.entries, test sub n e.1 e.2 b := by
  have hgrows := Scene.growsBy_of_mem_results q hr
  refine ⟨hgrows.le, fun name n hn hnew => ?_, fun f hf name hname => ?_⟩
  · exact (hgrows.mem name n hn).resolve_left (by simp [hnew])
  · obtain ⟨b, n, hfound⟩ := Scene.exists_found_of_mem_results q hr hf
    refine ⟨n, hfound.bound name hname, fun test hkind hpredicate => ?_⟩
    have haccepted := hfound.accepted
    simp only [Matcher.scene, NodeKind.acceptance, hkind, hpredicate] at haccepted
    obtain ⟨htype, hproperties⟩ := NodeKind.acceptsBy_iff.mp haccepted
    exact ⟨htype, b, hfound.start_le, hfound.le_result, hproperties⟩

/-- One name on two queries of an unordered container, a type asked for by the first and a property
by the second, both below a captured parent. -/
theorem Matcher.evaluate_captures_shared_name :
    let root : Node := .addChildren (.ofType "root")
      [.addChildren (.ofType "p") [.ofType "a", (Node.ofType "a").setProperty "id" (.integer 1)]]
    let sub := Subject.ofNode root
    let tree : LinkedTree := .ofTree (.node 0 [.node 1 [.node 2 [], .node 3 []]])
    let typed : Filter := { type := some "a", capture := some "X" }
    let one : Filter := { properties := some (.ofList [("id", .integer 1)]), capture := some "X" }
    let q := Query.single { capture := some "P" } (.container .unordered [.leaf typed, .leaf one])
    let s : State := { State.initial tree with bindings := Bindings.empty.insert "Q" 2 }
    let r : State := ⟨0, none, ((Bindings.empty.insert "Q" 2).insert "P" 1).insert "X" 3⟩
    r ∈ ((({} : Matcher).scene sub tree).evaluate q s).items ∧ typed ∈ q.required ∧
      one ∈ q.required ∧ (∀ name n, s.bindings.get? name = some n → r.bindings.get? name = some n) ∧
      ∃ n, r.bindings.get? "X" = some n ∧ sub.type n = "a" ∧
        ((sub.property? n "id").getD .null).same (.integer 1) := by
  intro root sub tree typed one q s r
  have hr : r ∈ ((({} : Matcher).scene sub tree).evaluate q s).items := by
    rw [Scene.mem_evaluate_iff]
    decide +kernel
  have htyped : typed ∈ q.required := by
    simp [q, Query.required, Query.requiredOf, Query.leaf, Mode.requiresAll]
  have hone : one ∈ q.required := by
    simp [q, Query.required, Query.requiredOf, Query.leaf, Mode.requiresAll]
  obtain ⟨hle, _, hfilters⟩ := Matcher.evaluate_captures {} sub tree q hr
  obtain ⟨n, hn, htype⟩ := hfilters typed htyped "X" rfl
  obtain ⟨n', hn', hproperties⟩ := hfilters one hone "X" rfl
  obtain rfl : n = n' := Option.some.inj (hn.symm.trans hn')
  obtain ⟨_, b, _, _, hpasses⟩ := hproperties NodeKind.ownValue rfl rfl
  exact ⟨hr, htyped, hone, hle, n, hn, (htype NodeKind.ownValue rfl rfl).1 "a" rfl,
    hpasses _ rfl ("id", .integer 1) (.head _)⟩

end TreeQuery
