import TreeQuery.Proofs.Places
import TreeQuery.Proofs.Singles

/-! Bindings that are given before a search begins. If no node is accepted or refused for what is
bound and nothing is optional, such bindings are added to every result that they agree with, and
take away the others; no result is found because of them. -/

namespace TreeQuery

namespace Bindings

variable {a b c : Bindings}

/-- What is bound by either; where both bind a name, the first counts. -/
instance : Union Bindings where
  union b c := b.entries.foldr (fun e c => c.insert e.1 e.2) c

theorem get?_union (b c : Bindings) (name : String) :
    (b ∪ c).get? name = (b.get? name).or (c.get? name) := by
  obtain ⟨entries, hsorted⟩ := b
  change (entries.foldr (fun e c => c.insert e.1 e.2) c).get? name =
    (entries.lookup name).or (c.get? name)
  clear hsorted
  induction entries with
  | nil => rfl
  | cons e entries ih =>
    rw [List.foldr_cons, get?_insert, ih, lookup_cons_eq_ite]
    split <;> rfl

/-- No name is bound to different nodes. -/
def Compatible (b c : Bindings) : Prop :=
  ∀ name m n, b.get? name = some m → c.get? name = some n → m = n

theorem compatible_iff_forall_entries :
    b.Compatible c ↔ ∀ e ∈ b.entries, (c.get? e.1).all (e.2 == ·) := by
  simp only [Compatible, get?, Option.all_eq_true, beq_iff_eq, mem_iff_lookup b.sorted]
  exact ⟨fun h e he n hn => h e.1 e.2 n he hn, fun h name m n hm hn => h (name, m) hm n hn⟩

instance (b c : Bindings) : Decidable (b.Compatible c) :=
  decidable_of_iff' _ compatible_iff_forall_entries

theorem Compatible.symm (h : b.Compatible c) : c.Compatible b :=
  fun name m n hm hn => (h name n m hn hm).symm

theorem Compatible.mono (h : b.Compatible c) (hle : a ≤ c) : b.Compatible a :=
  fun name m n hm hn => h name m n hm (hle name n hn)

theorem Compatible.get?_union_eq_some_iff (h : b.Compatible c) {name : String} {n : Nat} :
    (b ∪ c).get? name = some n ↔ b.get? name = some n ∨ c.get? name = some n := by
  rw [get?_union]
  cases hb : b.get? name with
  | none => simp
  | some m =>
    have hsame : c.get? name = some n → m = n := h name m n hb
    simpa using hsame

theorem Compatible.union_comm (h : b.Compatible c) : b ∪ c = c ∪ b := by
  refine ext_get? fun name => Option.ext fun n => ?_
  rw [h.get?_union_eq_some_iff, h.symm.get?_union_eq_some_iff]
  exact or_comm

theorem compatible_of_le (h : c ≤ b) : b.Compatible c :=
  fun name _ n hm hn => Option.some.inj (hm.symm.trans (h name n hn))

theorem union_eq_left_of_le (h : c ≤ b) : b ∪ c = b := by
  refine ext_get? fun name => Option.ext fun n => ?_
  rw [(compatible_of_le h).get?_union_eq_some_iff]
  exact or_iff_left_of_imp (h name n)

theorem empty_le (b : Bindings) : Bindings.empty ≤ b := by
  intro name n hn
  simp [get?, empty] at hn

/-- A capture that is bound already is bound to this node. -/
def Allows (b : Bindings) (capture : Option String) (node : Nat) : Prop :=
  ∀ name n, capture = some name → b.get? name = some n → n = node

variable {capture : Option String} {node : Nat}

theorem Compatible.allows_union_iff (h : b.Compatible c) :
    (b ∪ c).Allows capture node ↔ b.Allows capture node ∧ c.Allows capture node := by
  simp only [Allows, h.get?_union_eq_some_iff, or_imp, imp_and, forall_and]

theorem get?_bind_self {name : String} (h : capture = some name) :
    (b.bind capture node).get? name = some node := by
  rw [get?_bind, if_pos h]

theorem Compatible.bind (hbc : b.Compatible c) (hb : b.Allows capture node) :
    b.Compatible (c.bind capture node) := by
  intro name m n hm hn
  rw [get?_bind] at hn
  split at hn
  next hname => exact (hb name m hname hm).trans (Option.some.inj hn)
  next => exact hbc name m n hm hn

theorem allows_of_compatible_bind (h : b.Compatible (c.bind capture node)) :
    b.Allows capture node :=
  fun name n hname hn => h name n node hn (get?_bind_self hname)

theorem union_bind (hb : b.Allows capture node) :
    b ∪ c.bind capture node = (b ∪ c).bind capture node := by
  refine ext_get? fun name => ?_
  rw [get?_union, get?_bind, get?_bind, get?_union]
  split
  next hname =>
    cases hn : b.get? name with
    | none => rfl
    | some n => rw [hb name n hname hn, Option.some_or]
  next => rfl

end Bindings

namespace State

variable {s u : State} {b : Bindings} {t : LinkedTree}

/-- The same state, but for bindings that are given before it. -/
def given (s : State) (b : Bindings) : State := s.withBindings (b ∪ s.bindings)

@[simp] theorem cursor_given (s : State) (b : Bindings) : (s.given b).cursor = s.cursor := rfl

@[simp] theorem bindings_given (s : State) (b : Bindings) :
    (s.given b).bindings = b ∪ s.bindings := rfl

theorem notBefore_given : (s.given b).notBefore t u = (s.notBefore t u).given b := by
  rw [notBefore, notBefore, cursor_given]
  split
  · split <;> rfl
  · rfl

theorem SamePlace.given_eq {c : Bindings} (h : s.SamePlace u)
    (hbindings : b ∪ s.bindings = c ∪ u.bindings) : s.given b = u.given c := by
  rw [given, given, withBindings, withBindings, h.1, h.2, hbindings]

theorem eq_given_iff {r x : State} : r = x.given b ↔ r.root = x.root ∧ r.cursor = x.cursor ∧
    ∀ name, r.bindings.get? name = (b.get? name).or (x.bindings.get? name) := by
  constructor
  · rintro rfl
    exact ⟨rfl, rfl, fun name => Bindings.get?_union b x.bindings name⟩
  · rintro ⟨hroot, hcursor, hbindings⟩
    have hunion : r.bindings = b ∪ x.bindings :=
      Bindings.ext_get? fun name => by rw [hbindings, Bindings.get?_union]
    rw [given, withBindings, ← hunion, ← hroot, ← hcursor]

theorem withBindings_empty_given (s : State) : (s.withBindings .empty).given s.bindings = s := by
  rw [given]
  exact congrArg s.withBindings (Bindings.union_eq_left_of_le s.bindings.empty_le)

end State

/-- Bindings given before are added to what is found without them, where they agree with it; no more
is found. -/
structure Cumulative (find : Find) : Prop where
  le : ∀ s, ∀ r ∈ find s, s.bindings ≤ r.bindings
  mem_given_iff : ∀ s b, b.Compatible s.bindings → ∀ r,
    r ∈ find (s.given b) ↔ ∃ x ∈ find s, b.Compatible x.bindings ∧ r = x.given b

namespace Cumulative

variable {find other : Find} {parts : List Find} {scene : Scene}

theorem congr (h : Cumulative find) (hmem : ∀ s r, r ∈ other s ↔ r ∈ find s) :
    Cumulative other where
  le := fun s r hr => h.le s r ((hmem s r).mp hr)
  mem_given_iff := by
    intro s b hb r
    simp only [hmem, h.mem_given_iff s b hb]

theorem singleton : Cumulative fun s => [s] where
  le := fun s r hr => List.mem_singleton.mp hr ▸ Bindings.le_refl s.bindings
  mem_given_iff := fun s b hb r => by simp [hb]

theorem append (h : Cumulative find) (h' : Cumulative other) :
    Cumulative fun s => find s ++ other s where
  le := fun s r hr => (List.mem_append.mp hr).elim (h.le s r) (h'.le s r)
  mem_given_iff := by
    intro s b hb r
    simp only [List.mem_append, h.mem_given_iff s b hb, h'.mem_given_iff s b hb, or_and_right,
      exists_or]

theorem flatMap (h : Cumulative find) (h' : Cumulative other) :
    Cumulative fun s => (find s).flatMap other where
  le := by
    intro s r hr
    obtain ⟨u, hu, hr⟩ := List.mem_flatMap.mp hr
    exact Bindings.le_trans (h.le s u hu) (h'.le u r hr)
  mem_given_iff := by
    intro s b hb r
    simp only [List.mem_flatMap, h.mem_given_iff s b hb]
    constructor
    · intro hr
      obtain ⟨_, ⟨u, hu, hbu, rfl⟩, hr⟩ := hr
      obtain ⟨x, hx, hbx⟩ := (h'.mem_given_iff u b hbu r).mp hr
      exact ⟨x, ⟨u, hu, hx⟩, hbx⟩
    · intro hr
      obtain ⟨x, ⟨u, hu, hx⟩, hbx⟩ := hr
      have hbu : b.Compatible u.bindings := hbx.1.mono (h'.le u x hx)
      exact ⟨u.given b, ⟨u, hu, hbu, rfl⟩, (h'.mem_given_iff u b hbu r).mpr ⟨x, hx, hbx⟩⟩

theorem filter (h : Cumulative find) {p : State → State → Bool}
    (hp : ∀ s r b, p (s.given b) (r.given b) = p s r) :
    Cumulative fun s => (find s).filter (p s) where
  le := fun s r hr => h.le s r (List.mem_filter.mp hr).1
  mem_given_iff := by
    intro s b hb r
    simp only [List.mem_filter, h.mem_given_iff s b hb]
    constructor
    · intro hr
      obtain ⟨⟨x, hx, hbx, rfl⟩, hpx⟩ := hr
      exact ⟨x, ⟨hx, hp s x b ▸ hpx⟩, hbx, rfl⟩
    · intro hr
      obtain ⟨x, ⟨hx, hpx⟩, hbx, rfl⟩ := hr
      exact ⟨⟨x, hx, hbx, rfl⟩, (hp s x b).trans hpx⟩

/-- The results may be moved, if they keep their bindings and the move goes by cursors only. -/
theorem map (h : Cumulative find) {move : State → State → State}
    (hbindings : ∀ s r, (move s r).bindings = r.bindings)
    (hgiven : ∀ s r b, move (s.given b) (r.given b) = (move s r).given b) :
    Cumulative fun s => (find s).map (move s) where
  le := by
    intro s r hr
    obtain ⟨x, hx, rfl⟩ := List.mem_map.mp hr
    rw [hbindings]
    exact h.le s x hx
  mem_given_iff := by
    intro s b hb r
    simp only [List.mem_map, h.mem_given_iff s b hb]
    constructor
    · intro hr
      obtain ⟨_, ⟨x, hx, hbx, rfl⟩, rfl⟩ := hr
      exact ⟨move s x, ⟨x, hx, rfl⟩, by rwa [hbindings], hgiven s x b⟩
    · intro hr
      obtain ⟨_, ⟨x, hx, rfl⟩, hbx, rfl⟩ := hr
      rw [hbindings] at hbx
      exact ⟨x.given b, ⟨x, hx, hbx, rfl⟩, hgiven s x b⟩

theorem startingAt (h : Cumulative find) (start : State) :
    Cumulative fun s => find (s.startAt start) where
  le := fun s => h.le (s.startAt start)
  mem_given_iff := fun s => h.mem_given_iff (s.startAt start)

theorem chain (h : ∀ part ∈ parts, Cumulative part) : Cumulative (chain List.eraseDups parts) := by
  induction parts with
  | nil => exact singleton.congr fun s r => by simp [TreeQuery.chain]
  | cons part parts ih =>
    obtain ⟨hpart, hparts⟩ := List.forall_mem_cons.mp h
    refine (hpart.flatMap (ih hparts)).congr fun s r => ?_
    rw [mem_chain_cons_iff, List.mem_flatMap]

theorem accumulated (h : ∀ part ∈ parts, Cumulative part) :
    Cumulative (Scene.accumulated parts) := by
  induction parts using List.reverseRecOn with
  | nil => exact ⟨by simp [Scene.accumulated], by simp [Scene.accumulated]⟩
  | append_singleton front last ih =>
    have hfront := ih fun part hp => h part (List.mem_append_left _ hp)
    have hlast := h last (by simp)
    have hseeds : Cumulative fun s => (Scene.accumulated front s).map (·.startAt s) :=
      hfront.map (fun _ _ => rfl) fun _ _ _ => rfl
    refine (hfront.append (hlast.append (hseeds.flatMap hlast))).congr fun s r => ?_
    simp only [Scene.mem_accumulated_concat_iff, List.mem_append, List.mem_flatMap, List.mem_map,
      exists_exists_and_eq_and]

theorem anywhere (h : Cumulative find) (start : State) : Cumulative (scene.anywhere start find) :=
  (h.startingAt start).map (fun s r => State.bindings_notBefore scene.tree r s) fun _ _ _ =>
    State.notBefore_given

theorem covering (h : Cumulative find) (nextOnly : Bool) :
    Cumulative (scene.covering nextOnly find) := by
  have haligned : Cumulative fun s => (find s).map (·.align scene.tree) :=
    h.map (fun _ _ => rfl) fun _ _ _ => rfl
  cases nextOnly with
  | false => exact haligned
  | true =>
    have hnext := haligned.filter (p := fun s r => s.cursor.isSome &&
      decide (r.cursor = s.cursor.bind scene.tree.directNeighbor?)) fun _ _ _ => rfl
    refine hnext.congr fun s r => ?_
    cases hc : s.cursor <;> simp [Scene.covering, hc]

end Cumulative

namespace Query

mutual

/-- The modes of all containers in a query. -/
def modes : Query → List Mode
  | single _ nested => nested.modes
  | container mode children => mode :: modesOf children

def modesOf : List Query → List Mode
  | [] => []
  | q :: qs => q.modes ++ modesOf qs

end

theorem mem_modesOf {mode : Mode} {qs : List Query} :
    mode ∈ modesOf qs ↔ ∃ q ∈ qs, mode ∈ q.modes := by
  induction qs with
  | nil => simp [modesOf]
  | cons q qs ih => simp [modesOf, ih]

end Query

namespace Scene

variable {scene : Scene} {s r : State}

theorem consumes_union_iff (hscene : scene.IgnoresBindings) {f : Filter} {nested : Query}
    (hnested : Cumulative (scene.results nested)) {id : Nat} {b c d : Bindings}
    (h : b.Compatible c) :
    scene.Consumes f nested id (b ∪ c) d ↔
      ∃ e, scene.Consumes f nested id c e ∧ b.Compatible e ∧ d = b ∪ e := by
  have hbelow (hb : b.Allows f.capture (scene.tree.node id)) := hnested.mem_given_iff
    ⟨id, scene.tree.firstChild? id, c.bind f.capture (scene.tree.node id)⟩ b (h.bind hb)
  constructor
  · intro hconsumes
    obtain ⟨hb, hc⟩ := h.allows_union_iff.mp hconsumes.bound
    obtain ⟨x, hx, rfl⟩ := hconsumes.nested
    rw [← Bindings.union_bind hb] at hx
    obtain ⟨y, hy, hby, rfl⟩ := (hbelow hb x).mp hx
    have haccepted := hscene f _ _ c ▸ hconsumes.accepted
    exact ⟨y.bindings, ⟨haccepted, hc, y, hy, rfl⟩, hby, rfl⟩
  · intro hconsumes
    obtain ⟨_, ⟨haccepted, hc, y, hy, rfl⟩, hby, rfl⟩ := hconsumes
    have hb : b.Allows f.capture (scene.tree.node id) :=
      Bindings.allows_of_compatible_bind (hby.mono (hnested.le _ y hy))
    have hx := (hbelow hb _).mpr ⟨y, hy, hby, rfl⟩
    refine ⟨hscene f _ _ c ▸ haccepted, h.allows_union_iff.mpr ⟨hb, hc⟩, y.given b, ?_, rfl⟩
    rw [← Bindings.union_bind hb]
    exact hx

theorem cumulative_results (hscene : scene.IgnoresBindings) {q : Query} (hq : .optional ∉ q.modes) :
    Cumulative (scene.results q) := by
  induction q with
  | single f nested ih =>
    rw [Query.modes] at hq
    refine ⟨fun s r hr => (growsBy_of_mem_results _ hr).le, fun s b hb r => ?_⟩
    have hcandidates : scene.candidates f (s.given b) = scene.candidates f s :=
      candidates_congr ⟨rfl, rfl⟩ f
    simp only [mem_results_single_iff, hcandidates, State.bindings_given,
      consumes_union_iff hscene (ih hq) hb]
    constructor
    · intro hr
      obtain ⟨id, hid, ⟨e, hconsumes, hbe, he⟩, hr⟩ := hr
      refine ⟨(s.past scene.tree id).withBindings e, ⟨id, hid, hconsumes, rfl⟩, hbe, ?_⟩
      rw [hr, he]
      rfl
    · intro hr
      obtain ⟨x, ⟨id, hid, hconsumes, hx⟩, hbx, rfl⟩ := hr
      refine ⟨id, hid, ⟨x.bindings, hconsumes, hbx, rfl⟩, ?_⟩
      rw [hx]
      rfl
  | container mode children ih =>
    rw [Query.modes, List.mem_cons, not_or, Query.mem_modesOf] at hq
    have hchild : ∀ q ∈ children, Cumulative (scene.results q) :=
      fun q hmem => ih q hmem fun hopt => hq.2 ⟨q, hmem, hopt⟩
    cases mode with
    | ordered =>
      rw [funext (scene.results_ordered children)]
      exact .chain (List.forall_mem_map.mpr hchild)
    | unordered =>
      have hparts (start : State) : Cumulative (chain List.eraseDups
          (children.map fun q => scene.anywhere start (scene.results q))) :=
        .chain (List.forall_mem_map.mpr fun q hmem => (hchild q hmem).anywhere start)
      rw [funext (scene.results_unordered children)]
      exact ⟨fun s => (hparts s).le s, fun s => (hparts s).mem_given_iff s⟩
    | any =>
      rw [funext (scene.results_any children)]
      cases children.isEmpty with
      | true => exact .singleton
      | false => exact .accumulated (List.forall_mem_map.mpr hchild)
    | optional => exact absurd rfl hq.1
    | exact =>
      have hstretches : Cumulative
          (chain List.eraseDups ((Query.stretches children).map scene.stretch)) :=
        .chain (List.forall_mem_map.mpr fun part hpart =>
          (hchild part.1 (Query.mem_of_mem_stretches hpart)).covering _)
      rw [funext (scene.results_exact children)]
      cases Query.endsClosed children with
      | true => exact hstretches.filter fun _ _ _ => rfl
      | false => exact hstretches

end Scene

namespace Matcher

/-- If nothing is optional and no node is accepted or refused for what is bound, what is found with
bindings given is what is found without any, as far as it agrees with them, at the same place and
with those bindings added. -/
theorem evaluate_given_bindings {m : Matcher} {sub : Subject} (hm : m.IgnoresBindings sub)
    {q : Query} (hq : .optional ∉ q.modes) (tree : LinkedTree) (s r : State) :
    r ∈ ((m.scene sub tree).evaluate q s).items ↔
      ∃ x ∈ ((m.scene sub tree).evaluate q (s.withBindings .empty)).items,
        s.bindings.Compatible x.bindings ∧ r.root = x.root ∧ r.cursor = x.cursor ∧
        ∀ name, r.bindings.get? name = (s.bindings.get? name).or (x.bindings.get? name) := by
  have hcumulative := (Scene.cumulative_results (hm.scene tree) hq).mem_given_iff
    (s.withBindings .empty) s.bindings (Bindings.compatible_of_le s.bindings.empty_le) r
  rw [State.withBindings_empty_given] at hcumulative
  simp only [State.eq_given_iff] at hcumulative
  exact hcumulative

/-- Of two ways to bind a name, the one that agrees with what is bound before is left. -/
theorem evaluate_given_bindings_one_of_two :
    let n : Node := .addChildren (.ofType "root")
      [.ofType "a", .addChildren (.ofType "b") [.ofType "a"], .ofType "c"]
    let m : Matcher := {}
    let sub := Subject.ofNode n
    let scene := m.scene sub (.ofTree n.places)
    let q : Query := .container .ordered [.leaf { type := some "a", capture := some "X" },
      .container .any [.leaf { type := some "c", capture := some "Y" }]]
    let s : State := { State.initial scene.tree with bindings := .ofList [("X", 3), ("Z", 2)] }
    let x : State := ⟨0, none, .ofList [("X", 3), ("Y", 4)]⟩
    let other : State := ⟨0, none, .ofList [("X", 1), ("Y", 4)]⟩
    let r : State := ⟨0, none, .ofList [("X", 3), ("Y", 4), ("Z", 2)]⟩
    m.IgnoresBindings sub ∧ .optional ∉ q.modes ∧
      x ∈ (scene.evaluate q (s.withBindings .empty)).items ∧
      other ∈ (scene.evaluate q (s.withBindings .empty)).items ∧
      r ∈ (scene.evaluate q s).items ∧
      ∀ u ∈ (scene.evaluate q s).items, u.bindings.get? "X" = some 3 := by
  intro n m sub scene q s x other r
  have hm : m.IgnoresBindings sub := plain_ignoresBindings {} false sub
  have hq : .optional ∉ q.modes := by
    simp [q, Query.leaf, Query.empty, Query.modes, Query.modesOf]
  have hx : x ∈ (scene.evaluate q (s.withBindings .empty)).items := by
    rw [Scene.mem_evaluate_iff]
    decide +kernel
  have hother : other ∈ (scene.evaluate q (s.withBindings .empty)).items := by
    rw [Scene.mem_evaluate_iff]
    decide +kernel
  have hgiven := evaluate_given_bindings hm hq scene.tree s
  have hr : r = x.given s.bindings := by decide +kernel
  have hcompatible : s.bindings.Compatible x.bindings := by decide +kernel
  refine ⟨hm, hq, hx, hother, (hgiven r).mpr ⟨x, hx, hcompatible, State.eq_given_iff.mp hr⟩, ?_⟩
  intro u hu
  obtain ⟨_, _, _, _, _, hbindings⟩ := (hgiven u).mp hu
  have hbound : s.bindings.get? "X" = some 3 := by decide +kernel
  rw [hbindings, hbound, Option.some_or]

end Matcher

end TreeQuery
